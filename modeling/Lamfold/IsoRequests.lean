import Lamfold.IsoState
import Lamfold.Requests

/-!
What the ISO 9660 frontend asks of its source. Directories, block tables and compressed
blocks are checked against the cap before they are asked for, and a continuation area is
no longer than a block, whose size has 16 bits.
-/
namespace Lamfold.Iso9660

open Effects Bytes Utf8 RockRidge

variable {limit : ℕ}

/-- A directory is checked against the cap before it is asked for. -/
theorem asks_readDirExtent (src : Source) (blockSize : ℕ) (inode : Inode)
    (hlimit : maxBootFileBytes ≤ limit) :
    Asks limit (readDirExtent src blockSize inode) (readDirExtent src blockSize inode) := by
  refine .bind (.of _) fun len hlen => .bind (.of _) fun off _ => ?_
  obtain ⟨hle, rfl⟩ := checkedFullReadLen_eq_ok.mp hlen
  exact asks_source src off (hle.trans hlimit)

/-- A continuation area is asked for as long as it says it is. -/
theorem asks_readContinuation {vol : Volume} {ce : Continuation} (hce : ce.len ≤ limit) :
    Asks limit (readContinuation vol ce) (readContinuation vol ce) := by
  refine .bind (.of _) fun block _ => .bind (.of _) fun at_ _ => .bind (.of _) fun stop _ => ?_
  exact .ite (fun _ => .of _) fun _ => asks_source vol.src at_ hce

/-- The areas of a record are in one block each. -/
theorem asks_parseContinuations {vol : Volume} (hsize : vol.blockSize ≤ limit) (parser : RrParser)
    (next : Option Continuation) (left : ℕ) :
    Asks limit (parseContinuations vol parser next left)
      (parseContinuations vol parser next left) := by
  induction left generalizing parser next with
  | zero =>
    cases next with
    | none => exact .pure parser
    | some ce => exact .of _
  | succ left ih =>
    cases next with
    | none => exact .pure parser
    | some ce =>
      refine .ite (fun _ => .of _) fun hce => ?_
      refine .bind (asks_readContinuation (by omega)) fun area _ => .bind (.of _) fun fed _ => ?_
      exact ih fed.1 fed.2

theorem asks_recordInfo {vol : Volume} (hsize : vol.blockSize ≤ limit) (record : List UInt8)
    (fiLen : ℕ) :
    Asks limit (recordInfo vol record fiLen) (recordInfo vol record fiLen) := by
  refine .ite (fun _ => .bind (.of _) fun fed _ => ?_) fun _ => .pure _
  exact .bind (asks_parseContinuations hsize fed.1 fed.2 _) fun parser _ => .pure _

theorem asks_readRecord {vol : Volume} (hsize : vol.blockSize ≤ limit) (dirLba : ℕ)
    (buf : List UInt8) (pos : ℕ) (record fi : List UInt8) (pending : Option (Str × Inode)) :
    Asks limit (readRecord vol dirLba buf pos record fi pending)
      (readRecord vol dirLba buf pos record fi pending) := by
  refine .ite (fun _ => .pure _) fun _ => .bind (.of _) fun flags _ => ?_
  refine .bind (.of _) fun lba _ => .bind (.of _) fun size _ => ?_
  cases pending with
  | some open_ => exact .bind (.of _) fun inode _ => .pure _
  | none =>
    refine .bind (.bind (.of _) fun name _ => ?_) fun entry _ => .pure _
    exact .bind (asks_recordInfo hsize record fi.length) fun rr _ => .pure _

/-- A directory in memory asks for the continuations of its records only. -/
theorem asks_entriesFrom {vol : Volume} (hsize : vol.blockSize ≤ limit) (dirLba : ℕ)
    (buf : List UInt8) (pending : Option (Str × Inode)) (pos : ℕ) :
    Asks limit (entriesFrom vol dirLba buf pending pos)
      (entriesFrom vol dirLba buf pending pos) := by
  fun_induction entriesFrom vol dirLba buf pending pos with
  | case1 pending pos hpos ih₁ ih₂ =>
    rw [entriesFrom, if_pos hpos]
    refine .bind (.of _) fun len _ => .dite (fun hzero => ?_) fun hzero => ?_
    · exact .ite (fun _ => .of _) fun hnext => ih₁ hnext
    · refine .bind (.of _) fun found _ => ?_
      obtain ⟨record, fi⟩ := found
      refine .bind (asks_readRecord hsize dirLba buf pos record fi pending) fun read _ => ?_
      exact .bind (ih₂ len hzero read.2) fun rest _ => .pure _
  | case2 pending pos hpos =>
    rw [entriesFrom, if_neg hpos]
    exact .of _

theorem asks_forEachEntry {vol : Volume} (hlimit : maxBootFileBytes ≤ limit)
    (hsize : vol.blockSize ≤ limit) (dir : Inode) :
    Asks limit (forEachEntry vol dir) (forEachEntry vol dir) :=
  .bind (asks_readDirExtent vol.src vol.blockSize dir hlimit) fun buf _ =>
    asks_entriesFrom hsize dir.lba buf none 0

section Data

variable {ρ : Type} (codecs : Codecs ρ) (vol : Volume)

/-- A compressed block is checked against the cap before it is asked for. -/
theorem asks_zisofsBlock (extentOff cstart cend uncompressed : ℕ) :
    Asks maxBootFileBytes (zisofsBlock codecs vol extentOff cstart cend uncompressed)
      (zisofsBlock codecs vol extentOff cstart cend uncompressed) := by
  refine .ite (fun _ => .pure _) fun _ => .bind (.of _) fun clen hclen => ?_
  obtain ⟨hle, rfl⟩ := checkedFullReadLen_eq_ok.mp hclen
  refine .bind (.of _) fun at_ _ => ?_
  exact .bind (asks_source vol.src at_ hle) fun cbuf _ => .of _

theorem asks_zisofsFrom (head : List UInt8) (extentOff blockSize size stop cur : ℕ)
    (out : List UInt8) :
    Asks maxBootFileBytes
      (zisofsFrom codecs vol head extentOff blockSize size stop cur out)
      (zisofsFrom codecs vol head extentOff blockSize size stop cur out) := by
  fun_induction zisofsFrom codecs vol head extentOff blockSize size stop cur out with
  | case1 cur out hcur blk ih =>
    rw [zisofsFrom, if_pos hcur]
    refine .bind (.of _) fun base _ => .bind (.of _) fun left _ => ?_
    refine .bind (.of _) fun cstart _ => .bind (.of _) fun cend _ => ?_
    refine .bind (asks_zisofsBlock codecs vol extentOff cstart cend _) fun block _ => ?_
    refine .bind (.of _) fun inBlk _ => .ite (fun _ => .pure _) fun htake => ?_
    exact .bind (.of _) fun bytes _ => ih block inBlk htake bytes
  | case2 cur out hcur =>
    rw [zisofsFrom, if_neg hcur]
    exact .pure out

theorem asks_readZisofs (inode : Inode) (zi : Zisofs) (off : ℕ) (buf : List UInt8) :
    Asks maxBootFileBytes (readZisofs codecs vol inode zi off buf)
      (readZisofs codecs vol inode zi off buf) := by
  refine .ite (fun _ => .pure _) fun _ => .ite (fun _ => .of _) fun _ => ?_
  refine .bind (.of _) fun entries _ => .bind (.of _) fun tableBytes _ => ?_
  refine .bind (.of _) fun total _ => .bind (.of _) fun headLen hheadLen => ?_
  obtain ⟨hle, rfl⟩ := checkedFullReadLen_eq_ok.mp hheadLen
  refine .bind (.of _) fun extentOff _ => .bind (asks_source vol.src extentOff hle) fun head _ => ?_
  refine .bind (.of _) fun magic _ => .ite (fun _ => .of _) fun _ => ?_
  exact .bind (asks_zisofsFrom codecs vol head extentOff _ _ _ off []) fun data _ => .pure _

/-- The extents of a file are asked for into the caller's buffer. -/
theorem asks_readPlain (inode : Inode) (off : ℕ) (buf : List UInt8) :
    Asks buf.length (readPlain vol inode off buf) (readPlain vol inode off buf) := by
  refine .ite (fun _ => .pure _) fun _ => ?_
  refine .bind (asks_readExtents Prod.snd ?_ (Nat.min_le_left _ _) off _ 0 []) fun data _ => .pure _
  intro e within n hn
  exact .bind (.of _) fun start _ => .bind (.of _) fun at_ _ => asks_source vol.src at_ hn

end Data

variable (src : Source)

theorem asks_probe : Asks maxBootFileBytes (probe src) (probe src) := by
  refine .ite (fun _ => .pure _) fun _ => .bind (asks_source src _ (by decide)) fun hdr _ => ?_
  exact .bind (.of _) fun id _ => .pure _

/-- The volume descriptors are asked for sector by sector. -/
theorem asks_scanVds (count i : ℕ) (found : Vds) :
    Asks maxBootFileBytes (scanVds src count i found) (scanVds src count i found) := by
  induction count generalizing i found with
  | zero => exact .pure found
  | succ count ih =>
    refine .bind (.of _) fun off _ => .bind (.of _) fun stop _ => .ite (fun _ => .pure _) fun _ => ?_
    refine .bind (asks_source src off (by decide)) fun vd _ => .bind (.of _) fun id _ => ?_
    refine .ite (fun _ => .of _) fun _ => .bind (.of _) fun type _ => ?_
    refine .ite (fun _ => .pure _) fun _ => .bind (.of _) fun found _ => ?_
    exact ih (i + 1) found

theorem asks_detectSusp (blockSize : ℕ) (root : Inode) :
    Asks maxBootFileBytes (detectSusp src blockSize root)
      (detectSusp src blockSize root) := by
  refine .bind (asks_readDirExtent src blockSize root (le_refl _)) fun buf _ => ?_
  cases buf with
  | nil => exact .pure none
  | cons len rest => exact .bind (.of _) fun record _ => .bind (.of _) fun fiLen _ => .of _

theorem asks_openVolume : Asks maxBootFileBytes (openVolume src) (openVolume src) := by
  refine .bind (asks_scanVds src _ 0 _) fun found _ => .bind (.of _) fun primary _ => ?_
  refine .bind (asks_detectSusp src primary.blockSize primary.root) fun susp _ => ?_
  cases susp with
  | some skip => exact .pure _
  | none =>
    dsimp only
    cases found.jolietRoot with
    | some root => exact .pure _
    | none => exact .pure _

theorem asks_mount : Asks maxBootFileBytes (mount src) (mount src) :=
  .bind (asks_openVolume src) fun _ _ => .pure _

/-- The boot catalog and the head of the image are a sector each. -/
theorem asks_uefiImage (vol : Volume) :
    Asks maxBootFileBytes (uefiImage vol) (uefiImage vol) := by
  unfold uefiImage
  cases vol.elToritoCatalogLba with
  | none => exact .pure none
  | some catLba =>
    refine .bind (.of _) fun off _ => .bind (.of _) fun stop _ => .ite (fun _ => .pure _) fun _ => ?_
    refine .bind (asks_source vol.src off (by decide)) fun cat _ => .bind (.of _) fun image _ => ?_
    cases image with
    | none => exact .pure none
    | some image =>
      refine .ite (fun _ => ?_) fun _ => .pure _
      refine .bind (.of _) fun at_ _ => .bind (.of _) fun stop _ => ?_
      refine .ite (fun _ => ?_) fun _ => .pure _
      exact .bind (asks_source vol.src at_ (by decide)) fun boot _ => .pure _

section Methods

variable {ρ : Type} (zisofs : Bool) (codecs : Codecs ρ) {iso : Iso9660}

/-- The state of a volume is looked at without a request. -/
theorem asks_inode {P : Request → Prop} (node : NodeId) :
    TracksAt P (inode node) (inode node) iso := .get_bind (.lift _ iso)

theorem asks_dirEntries (hlimit : maxBootFileBytes ≤ limit) (hsize : iso.vol.blockSize ≤ limit)
    (dir : NodeId) : AsksAt limit (dirEntries (m := Asking) dir) (dirEntries dir) iso := by
  refine .bind_reading (asks_inode _) rfl fun inode _ => ?_
  refine .ite (fun _ => .throw _ iso) fun _ => .get_bind ?_
  exact .keep (asks_forEachEntry hlimit hsize inode) iso

theorem asks_lookup (hlimit : maxBootFileBytes ≤ limit) (hsize : iso.vol.blockSize ≤ limit)
    (dir : NodeId) (name : Str) :
    AsksAt limit (lookup (m := Asking) dir name) (lookup dir name) iso := by
  refine .bind (asks_dirEntries hlimit hsize dir) fun entries t _ => ?_
  cases entries.find? fun entry => entry.1 = name with
  | none => exact .pure none t
  | some entry => exact .bind (.zoom (asks_internOne _ _ t.table)) fun node u _ => .pure _ u

theorem asks_readAt (node : NodeId) (off : ℕ) (buf : List UInt8) :
    AsksAt (max maxBootFileBytes buf.length) (readAt (m := Asking) zisofs codecs node off buf)
      (readAt zisofs codecs node off buf) iso := by
  refine .bind_reading (asks_inode _) rfl fun inode _ => ?_
  refine .ite (fun _ => .throw _ iso) fun _ => .get_bind ?_
  cases inode.zisofs with
  | some zi =>
    refine .ite (fun _ => ?_) fun _ => .throw _ iso
    refine .keep ((asks_readZisofs codecs iso.vol inode zi off buf).mono ?_) iso
    exact Request.Within.mono (Nat.le_max_left _ _)
  | none =>
    refine .keep ((asks_readPlain iso.vol inode off buf).mono ?_) iso
    exact Request.Within.mono (Nat.le_max_right _ _)

/-- The frontend, with what it asks noted. -/
def recordedMethods : FoldFrontendIn (StateM (List Request)) Iso9660 :=
  frontendIn (m := Asking) zisofs codecs

/-- A call asks for at most `limit` bytes at a time, or fills the caller's buffer. -/
theorem asks_methods (hlimit : maxBootFileBytes ≤ limit) (hsize : iso.vol.blockSize ≤ limit) :
    (recordedMethods zisofs codecs).Asks (fun c r => r.length ≤ max limit c.bufLen)
      (frontend zisofs codecs) iso where
  root := rfl
  lookup dir name := (asks_lookup hlimit hsize dir name).mono fun _ hr =>
    hr.trans (Nat.le_max_left _ _)
  readDir dir := by
    refine .mono (.bind (asks_dirEntries hlimit hsize dir) fun entries t _ => ?_)
      fun _ hr => hr.trans (Nat.le_max_left _ _)
    exact .zoom (asks_internAll (fun _ _ => .pure _) t.table)
  metadata node := .bind (asks_inode node) fun _ t _ => .pure _ t
  readAt node off buf := (asks_readAt zisofs codecs node off buf).mono fun _ hr =>
    hr.trans (max_le_max hlimit (le_refl _))
  readLink node := .bind (asks_inode node) fun _ t _ => .pure _ t

theorem asks_elToritoUefiImage :
    AsksAt maxBootFileBytes (elToritoUefiImage (m := Asking)) elToritoUefiImage iso :=
  .get_bind (.keep (asks_uefiImage iso.vol) iso)

def opening : Opening Iso9660 Unit := ⟨probe, mount, fun _ => frontend zisofs codecs⟩

def recorded : Recorded (opening zisofs codecs) where
  probe := probe
  mount := mount
  methods _ := recordedMethods zisofs codecs
  probe_eq src := (asks_probe src).result
  mount_eq src := (asks_mount src).result
  methods_eq _ iso := by
    have hlimit := Nat.le_max_left maxBootFileBytes iso.vol.blockSize
    exact (asks_methods zisofs codecs hlimit (Nat.le_max_right _ _)).mono fun _ _ _ => trivial

/-- Every request is capped: a block size has 16 bits. -/
theorem capped : (recorded zisofs codecs).Capped src := by
  refine .intro (P := fun iso => iso.vol.blockSize < 2 ^ 16) (asks_probe src).within
    (asks_mount src).within (fun hmount => (mount_opened hmount).2.2.blockSize_lt) ?_ ?_
  · intro _
    exact frontend_keeps (P := fun _ => True) (fun _ _ _ _ _ => trivial) (fun _ _ => trivial)
      fun _ _ _ hsize => hsize
  · intro _ iso hsize
    exact asks_methods zisofs codecs (le_refl _) (hsize.le.trans (by decide))

end Methods

end Lamfold.Iso9660
