import Lamfold.Requests
import Lamfold.SquashState

/-!
What the SquashFS frontend asks of its source: metadata blocks, whose length has 15 bits,
and data blocks, whose length has 24.
-/
namespace Lamfold.SquashFs

open Effects Bytes Utf8

section Asked

variable {ρ : Type} (codecs : Codecs ρ) (vol : Volume)

/-- A metadata block has a length of 15 bits. -/
theorem asks_readMetaBlock (at_ : ℕ) :
    Asks maxBootFileBytes (readMetaBlock codecs vol at_) (readMetaBlock codecs vol at_) := by
  refine .bind (asks_source vol.src at_ (by decide)) fun hdr _ => .bind (.of _) fun start _ => ?_
  have hlen : leNat hdr &&& 0x7FFF ≤ maxBootFileBytes :=
    Nat.and_le_right.trans (by decide)
  refine .bind (asks_source vol.src start hlen) fun raw _ => ?_
  exact .bind (.of _) fun data _ => .bind (.of _) fun next _ => .pure _

/-- A span of metadata is asked for block by block. -/
theorem asks_readMetaFrom (length : ℕ) (block : List UInt8) (next pos : ℕ) (out : List UInt8) :
    Asks maxBootFileBytes (readMetaFrom codecs vol length block next pos out)
      (readMetaFrom codecs vol length block next pos out) := by
  fun_induction readMetaFrom codecs vol length block next pos out with
  | case1 block next pos out hlt hpos ih =>
    rw [readMetaFrom, if_pos hlt, if_pos hpos]
    refine .bind (asks_readMetaBlock codecs vol next) fun found _ => ?_
    obtain ⟨block', next'⟩ := found
    exact .ite (fun _ => .pure out) fun hne => ih block' next' hne
  | case2 block next pos out hlt hpos take ih =>
    rw [readMetaFrom, if_pos hlt, if_neg hpos]
    exact ih
  | case3 block next pos out hlt =>
    rw [readMetaFrom, if_neg hlt]
    exact .pure out

theorem asks_readMetaSpan (absBlock offset length : ℕ) :
    Asks maxBootFileBytes (readMetaSpan codecs vol absBlock offset length)
      (readMetaSpan codecs vol absBlock offset length) := by
  refine .bind (.of _) fun _ _ => ?_
  refine .bind (asks_readMetaBlock codecs vol absBlock) fun found _ => ?_
  exact asks_readMetaFrom codecs vol length found.1 found.2 offset []

theorem asks_parseFile (abs off headLen blocksStart size fragIdx fragOff : ℕ) :
    Asks maxBootFileBytes
      (parseFile codecs vol abs off headLen blocksStart size fragIdx fragOff)
      (parseFile codecs vol abs off headLen blocksStart size fragIdx fragOff) := by
  refine .bind (.of _) fun len _ => ?_
  refine .bind (asks_readMetaSpan codecs vol abs off len) fun full _ => ?_
  exact .bind (.of _) fun sizes _ => .bind (.of _) fun offsets _ => .pure _

/-- An inode of any type is in the metadata. -/
theorem asks_parseTyped (itype abs off : ℕ) :
    Asks maxBootFileBytes (parseTyped codecs vol itype abs off)
      (parseTyped codecs vol itype abs off) := by
  have hspan : ∀ length, Asks maxBootFileBytes (readMetaSpan codecs vol abs off length)
      (readMetaSpan codecs vol abs off length) := asks_readMetaSpan codecs vol abs off
  refine .ite (fun _ => ?_) fun _ => .ite (fun _ => ?_) fun _ => .ite (fun _ => ?_) fun _ =>
    .ite (fun _ => ?_) fun _ => .ite (fun _ => ?_) fun _ => .pure _
  · refine .bind (hspan 32) fun b _ => .bind (.of _) fun size _ => .bind (.of _) fun start _ => ?_
    exact .bind (.of _) fun absBlock _ => .bind (.of _) fun offset _ => .pure _
  · refine .bind (hspan 40) fun b _ => .bind (.of _) fun size _ => .bind (.of _) fun start _ => ?_
    exact .bind (.of _) fun absBlock _ => .bind (.of _) fun offset _ => .pure _
  · refine .bind (hspan 32) fun h _ => .bind (.of _) fun blocksStart _ => ?_
    refine .bind (.of _) fun fragIdx _ => .bind (.of _) fun fragOff _ => .bind (.of _) fun size _ => ?_
    exact asks_parseFile codecs vol abs off 32 blocksStart size fragIdx fragOff
  · refine .bind (hspan 56) fun h _ => .bind (.of _) fun blocksStart _ => ?_
    refine .bind (.of _) fun size _ => .bind (.of _) fun fragIdx _ => .bind (.of _) fun fragOff _ => ?_
    exact asks_parseFile codecs vol abs off 56 blocksStart size fragIdx fragOff
  · refine .bind (hspan 24) fun h _ => .bind (.of _) fun len _ => .bind (.of _) fun targetSize _ => ?_
    exact .bind (hspan _) fun full _ => .bind (.of _) fun target _ => .pure _

theorem asks_parseInode (inodeRef : ℕ) :
    Asks maxBootFileBytes (parseInode codecs vol inodeRef)
      (parseInode codecs vol inodeRef) := by
  refine .bind (.of _) fun abs _ => ?_
  refine .bind (asks_readMetaSpan codecs vol abs _ 16) fun head _ => .bind (.of _) fun itype _ => ?_
  exact asks_parseTyped codecs vol itype abs _

theorem asks_dirEntries (absBlock offset size : ℕ) :
    Asks maxBootFileBytes (dirEntries codecs vol absBlock offset size)
      (dirEntries codecs vol absBlock offset size) :=
  .bind (asks_readMetaSpan codecs vol absBlock offset _) fun _ _ => .of _

/-- A data block has a length of 24 bits. -/
theorem asks_readDataBlock (at_ rawSize : ℕ) :
    Asks maxBootFileBytes (readDataBlock codecs vol at_ rawSize)
      (readDataBlock codecs vol at_ rawSize) := by
  have hlen : rawSize &&& sizeMask ≤ maxBootFileBytes := Nat.and_le_right.trans (by decide)
  refine .ite (fun _ => .pure _) fun _ => ?_
  exact .bind (asks_source vol.src at_ hlen) fun raw _ => .of _

theorem asks_readFragment (idx : ℕ) :
    Asks maxBootFileBytes (readFragment codecs vol idx) (readFragment codecs vol idx) := by
  refine .bind (.of _) fun at_ _ => .bind (asks_source vol.src at_ (by decide)) fun ptr _ => ?_
  refine .bind (asks_readMetaSpan codecs vol _ _ 16) fun fe _ => ?_
  refine .bind (.of _) fun start _ => .bind (.of _) fun rawSize _ => ?_
  exact asks_readDataBlock codecs vol start rawSize

theorem asks_readBlock (file : FileBody) (idx within want : ℕ) :
    Asks maxBootFileBytes (readBlock codecs vol file idx within want)
      (readBlock codecs vol file idx within want) := by
  unfold readBlock
  cases file.blockSizes[idx]? with
  | some raw =>
    refine .ite (fun _ => .pure _) fun _ => .bind (.of _) fun at_ _ => ?_
    exact .bind (asks_readDataBlock codecs vol at_ raw) fun block _ => .of _
  | none =>
    refine .ite (fun _ => ?_) fun _ => .of _
    exact .bind (asks_readFragment codecs vol file.fragIdx) fun frag _ => .of _

/-- A window is asked for in whole blocks. -/
theorem asks_readBlocks (size : ℕ) (file : FileBody) (stop pos : ℕ) (out : List UInt8) :
    Asks maxBootFileBytes (readBlocks codecs vol size file stop pos out)
      (readBlocks codecs vol size file stop pos out) := by
  fun_induction readBlocks codecs vol size file stop pos out with
  | case1 pos out hpos idx within ih =>
    rw [readBlocks, if_pos hpos]
    refine .bind (.of _) fun base _ => .bind (.of _) fun left _ => .bind (.of _) fun inBlock _ => ?_
    refine .ite (fun _ => .of _) fun hwant => ?_
    refine .bind (asks_readBlock codecs vol file idx within _) fun bytes _ => ?_
    exact ih inBlock hwant bytes
  | case2 pos out hpos =>
    rw [readBlocks, if_neg hpos]
    exact .pure out

variable (src : Source)

theorem asks_probe : Asks maxBootFileBytes (probe src) (probe src) := by
  refine .ite (fun _ => .pure _) fun _ => ?_
  exact .bind (asks_source src 0 (by decide)) fun _ _ => .pure _

/-- Opening asks for the superblock. -/
theorem asks_openVolume : Asks maxBootFileBytes (openVolume src) (openVolume src) := by
  refine .ite (fun _ => .of _) fun _ => .bind (asks_source src 0 (by decide)) fun sb _ => ?_
  refine .bind (.of _) fun found _ => .ite (fun _ => .of _) fun _ => ?_
  refine .bind (.of _) fun id _ => .bind (.of _) fun codec _ => .bind (.of _) fun blockSize _ => ?_
  refine .dite (fun hrange => ?_) fun _ => .of _
  refine .bind (.of _) fun rootRef _ => .bind (.of _) fun inodeTableStart _ => ?_
  exact .bind (.of _) fun directoryTableStart _ => .bind (.of _) fun fragmentTableStart _ => .pure _

theorem asks_mount : Asks maxBootFileBytes (mount codecs src) (mount codecs src) := by
  refine .bind (asks_openVolume src) fun opened _ => ?_
  exact .bind (asks_parseInode codecs opened.1 opened.2) fun root _ => .pure _

theorem asks_inode {P : Request → Prop} (node : NodeId) (fs : SquashFs) :
    TracksAt P (inode node) (inode node) fs := .get_bind (.lift _ fs)

theorem asks_metadata {P : Request → Prop} (node : NodeId) (fs : SquashFs) :
    TracksAt P (metadata node) (metadata node) fs :=
  .bind (asks_inode node fs) fun _ t _ => .pure _ t

theorem asks_readLink {P : Request → Prop} (node : NodeId) (fs : SquashFs) :
    TracksAt P (readLink node) (readLink node) fs := by
  refine .bind (asks_inode node fs) fun inode t _ => ?_
  cases inode.body <;> exact .pure _ t

/-- A listing is in the metadata, and so are the inodes it names. -/
theorem asks_readDir (dir : NodeId) (fs : SquashFs) :
    AsksAt maxBootFileBytes (readDir (m := Asking) codecs dir) (readDir codecs dir) fs := by
  refine .bind_reading (asks_inode dir fs) rfl fun inode _ => ?_
  cases inode.body with
  | dir absBlock offset size =>
    have hlisting := asks_dirEntries codecs fs.vol absBlock offset size
    refine .get_bind (.bind_reading (.keep hlisting fs) rfl fun entries _ => ?_)
    exact .zoom (asks_internAll (fun record _ => asks_parseInode codecs fs.vol record.2) fs.table)
  | file file => exact .throw _ fs
  | symlink target => exact .throw _ fs
  | other => exact .throw _ fs

theorem asks_readFile (vol : Volume) (size : ℕ) (file : FileBody) (off : ℕ) (buf : List UInt8) :
    Asks maxBootFileBytes (readFile codecs vol size file off buf)
      (readFile codecs vol size file off buf) := by
  refine .ite (fun _ => .pure _) fun _ => .bind (.of _) fun asked _ => ?_
  exact .bind (asks_readBlocks codecs vol size file _ off []) fun data _ => .pure _

theorem asks_readAt (node : NodeId) (off : ℕ) (buf : List UInt8) (fs : SquashFs) :
    AsksAt maxBootFileBytes (readAt (m := Asking) codecs node off buf) (readAt codecs node off buf)
      fs := by
  refine .bind_reading (asks_inode node fs) rfl fun inode _ => ?_
  cases inode.body with
  | dir absBlock offset size => exact .ite (fun _ => .throw _ fs) fun _ => .throw _ fs
  | file file => exact .get_bind (.keep (asks_readFile codecs fs.vol inode.size file off buf) fs)
  | symlink target => exact .ite (fun _ => .throw _ fs) fun _ => .throw _ fs
  | other => exact .ite (fun _ => .throw _ fs) fun _ => .throw _ fs

/-- The methods, recorded. -/
def recordedMethods : FoldFrontendIn (StateM (List Request)) SquashFs :=
  frontendIn (m := Asking) codecs

/-- Every call asks for blocks, whatever the caller's buffer. -/
theorem asks_methods (fs : SquashFs) :
    (recordedMethods codecs).Asks (fun _ => Request.Within maxBootFileBytes) (frontend codecs) fs where
  root := rfl
  lookup dir _ := .bind (asks_readDir codecs dir fs) fun _ t _ => .pure _ t
  readDir dir := asks_readDir codecs dir fs
  metadata node := asks_metadata node fs
  readAt node off buf := asks_readAt codecs node off buf fs
  readLink node := asks_readLink node fs

def opening : Opening SquashFs Unit := ⟨probe, mount codecs, fun _ => frontend codecs⟩

def recorded : Recorded (opening codecs) where
  probe := probe
  mount := mount codecs
  methods _ := recordedMethods codecs
  probe_eq src := (asks_probe src).result
  mount_eq src := (asks_mount codecs src).result
  methods_eq _ fs := (asks_methods codecs fs).mono fun _ _ _ => trivial

/-- Every request is capped: a stored length has at most 24 bits. -/
theorem capped : (recorded codecs).Capped src := by
  refine .intro (P := fun _ => True) (asks_probe src).within (asks_mount codecs src).within
    (fun _ => trivial) (fun _ => ?_) fun _ fs _ => ?_
  · exact frontend_keeps fun _ _ _ _ _ => trivial
  · exact (asks_methods codecs fs).mono fun _ _ hr => hr.trans (Nat.le_max_left _ _)

end Asked

end Lamfold.SquashFs
