import Lamfold.Squash

/-!
What holds of a mounted SquashFS volume in every state. The nodes are parsed
inodes: each has as many block positions as block sizes, and a kind that its body
agrees with.
-/
namespace Lamfold.SquashFs

open Effects Bytes

variable {ρ : Type} {codecs : Codecs ρ}

/-- The kind that a body stands for. -/
def Body.kind : Body → FileKind
  | .dir .. => .directory
  | .file _ => .regular
  | .symlink _ => .symlink
  | .other => .other

/-- What holds of every parsed inode. -/
structure SquashInode.Sound (inode : SquashInode) : Prop where
  size_lt : inode.size < 2 ^ 64
  kind_eq : inode.kind = inode.body.kind
  offsets : ∀ file, inode.body = .file file → file.blockOffsets.length = file.blockSizes.length

/-- There is a position for each block. -/
theorem blockOffsets_length {here : ℕ} {sizes offsets : List ℕ}
    (h : blockOffsets here sizes = .ok offsets) : offsets.length = sizes.length := by
  induction sizes generalizing here offsets with
  | nil =>
    obtain rfl := Except.ok.inj h
    rfl
  | cons bs sizes ih =>
    obtain ⟨next, -, h⟩ := bind_eq_ok.mp h
    obtain ⟨rest, hrest, h⟩ := bind_eq_ok.mp h
    obtain rfl := Except.ok.inj h
    rw [List.length_cons, List.length_cons, ih hrest]

variable {vol : Volume} {inode : SquashInode}

theorem parseFile_sound {abs off headLen blocksStart size fragIdx fragOff : ℕ}
    (hsize : size < 2 ^ 64)
    (h : parseFile codecs vol abs off headLen blocksStart size fragIdx fragOff = .ok inode) :
    inode.Sound := by
  obtain ⟨len, -, h⟩ := bind_eq_ok.mp h
  obtain ⟨full, -, h⟩ := bind_eq_ok.mp h
  obtain ⟨sizes, hsizes, h⟩ := bind_eq_ok.mp h
  obtain ⟨offsets, hoffsets, h⟩ := bind_eq_ok.mp h
  obtain rfl := Except.ok.inj h
  refine ⟨hsize, rfl, ?_⟩
  intro file hfile
  obtain rfl := Body.file.inj hfile
  exact blockOffsets_length hoffsets

theorem parseBasicDir_sound {abs off : ℕ} (h : parseBasicDir codecs vol abs off = .ok inode) :
    inode.Sound := by
  obtain ⟨b, -, h⟩ := bind_eq_ok.mp h
  obtain ⟨size, hsize, h⟩ := bind_eq_ok.mp h
  obtain ⟨start, -, h⟩ := bind_eq_ok.mp h
  obtain ⟨absBlock, -, h⟩ := bind_eq_ok.mp h
  obtain ⟨offset, -, h⟩ := bind_eq_ok.mp h
  obtain rfl := Except.ok.inj h
  exact ⟨Nat.lt_trans (leAt_lt hsize) (by decide), rfl, fun _ hfile => nomatch hfile⟩

theorem parseExtendedDir_sound {abs off : ℕ}
    (h : parseExtendedDir codecs vol abs off = .ok inode) : inode.Sound := by
  obtain ⟨b, -, h⟩ := bind_eq_ok.mp h
  obtain ⟨size, hsize, h⟩ := bind_eq_ok.mp h
  obtain ⟨start, -, h⟩ := bind_eq_ok.mp h
  obtain ⟨absBlock, -, h⟩ := bind_eq_ok.mp h
  obtain ⟨offset, -, h⟩ := bind_eq_ok.mp h
  obtain rfl := Except.ok.inj h
  exact ⟨Nat.lt_trans (leAt_lt hsize) (by decide), rfl, fun _ hfile => nomatch hfile⟩

theorem parseSymlink_sound {abs off : ℕ} (h : parseSymlink codecs vol abs off = .ok inode) :
    inode.Sound := by
  obtain ⟨head, -, h⟩ := bind_eq_ok.mp h
  obtain ⟨len, -, h⟩ := bind_eq_ok.mp h
  obtain ⟨targetSize, hsize, h⟩ := bind_eq_ok.mp h
  obtain ⟨full, -, h⟩ := bind_eq_ok.mp h
  obtain ⟨target, -, h⟩ := bind_eq_ok.mp h
  obtain rfl := Except.ok.inj h
  obtain ⟨hle, rfl⟩ := checkedFullReadLen_eq_ok.mp hsize
  exact ⟨Nat.lt_of_le_of_lt hle (by decide), rfl, fun _ hfile => nomatch hfile⟩

/-- Whatever its type, a parsed inode is sound. -/
theorem parseTyped_sound {itype abs off : ℕ} (h : parseTyped codecs vol itype abs off = .ok inode) :
    inode.Sound := by
  unfold parseTyped at h
  split at h
  · exact parseBasicDir_sound h
  split at h
  · exact parseExtendedDir_sound h
  split at h
  · obtain ⟨head, -, h⟩ := bind_eq_ok.mp h
    obtain ⟨blocksStart, -, h⟩ := bind_eq_ok.mp h
    obtain ⟨fragIdx, -, h⟩ := bind_eq_ok.mp h
    obtain ⟨fragOff, -, h⟩ := bind_eq_ok.mp h
    obtain ⟨size, hsize, h⟩ := bind_eq_ok.mp h
    exact parseFile_sound (Nat.lt_trans (leAt_lt hsize) (by decide)) h
  split at h
  · obtain ⟨head, -, h⟩ := bind_eq_ok.mp h
    obtain ⟨blocksStart, -, h⟩ := bind_eq_ok.mp h
    obtain ⟨size, hsize, h⟩ := bind_eq_ok.mp h
    obtain ⟨fragIdx, -, h⟩ := bind_eq_ok.mp h
    obtain ⟨fragOff, -, h⟩ := bind_eq_ok.mp h
    exact parseFile_sound (leAt_lt hsize) h
  split at h
  · exact parseSymlink_sound h
  · obtain rfl := Except.ok.inj h
    exact ⟨by decide, rfl, fun _ hfile => nomatch hfile⟩

theorem parseInode_sound {inodeRef : ℕ} (h : parseInode codecs vol inodeRef = .ok inode) :
    inode.Sound := by
  obtain ⟨abs, -, h⟩ := bind_eq_ok.mp h
  obtain ⟨head, -, h⟩ := bind_eq_ok.mp h
  obtain ⟨itype, -, h⟩ := bind_eq_ok.mp h
  exact parseTyped_sound h

theorem exec_inode (node : NodeId) (fs : SquashFs) :
    exec (SquashFs.inode node) fs = (fs.table.inode node, fs) := rfl

/-- What interning parsed inodes keeps, every operation keeps. -/
theorem frontend_keeps {P : SquashFs → Prop}
    (h : ∀ fs entries, P fs → Preserves P (onTable
      (InternTable.internAll id (parseInode codecs fs.vol) SquashInode.kind entries))) :
    (frontend codecs).Keeps P := by
  have hinode : ∀ node, Preserves P (SquashFs.inode node) := fun _ => preserves_reading P _
  have hdir : ∀ dir, Preserves P (readDir codecs dir) := by
    intro dir
    refine Preserves.bind (hinode dir) ?_
    intro inode
    split
    · refine Preserves.get_bind ?_
      intro fs hfs
      refine Preserves.bind (Preserves.lift _ _) ?_
      intro entries
      exact h fs entries hfs
    · exact Preserves.throw _ _
  refine ⟨?_, hdir, ?_, ?_, ?_⟩
  · intro dir name
    exact Preserves.bind (hdir dir) fun _ => Preserves.pure _ _
  · intro node
    exact Preserves.bind (hinode node) fun _ => Preserves.pure _ _
  · intro node off buf
    refine Preserves.bind (hinode node) ?_
    intro inode
    split
    · exact Preserves.bind (Preserves.get _) fun _ => Preserves.lift _ _
    · exact Preserves.ite (Preserves.throw _ _) (Preserves.throw _ _)
  · intro node
    refine Preserves.bind (hinode node) ?_
    intro inode
    split
    · exact Preserves.pure _ _
    · exact Preserves.pure _ _

/-- The volume is `vol`, and the nodes are sound. -/
structure Opened (vol : Volume) (fs : SquashFs) : Prop where
  vol_eq : fs.vol = vol
  nodes : fs.table.All SquashInode.Sound

theorem frontend_keeps_opened (vol : Volume) : (frontend codecs).Keeps (Opened vol) := by
  refine frontend_keeps ?_
  intro other entries _
  have hall : Preserves (InternTable.All SquashInode.Sound)
      (InternTable.internAll id (parseInode codecs other.vol) SquashInode.kind entries) :=
    InternTable.internAll_all fun _ _ _ hparse => parseInode_sound hparse
  refine Preserves.zoom hall (fun fs hfs => hfs.nodes) ?_
  intro t fs ht hfs
  exact ⟨hfs.vol_eq, ht⟩

/-- A mounted volume has a sound root. -/
theorem mount_opened {src : Source} {fs : SquashFs} (h : mount codecs src = .ok fs) :
    Opened fs.vol fs := by
  obtain ⟨⟨vol, rootRef⟩, -, h⟩ := bind_eq_ok.mp h
  obtain ⟨root, hroot, h⟩ := bind_eq_ok.mp h
  obtain rfl := Except.ok.inj h
  exact ⟨rfl, (InternTable.all_empty _).intern rootRef (parseInode_sound hroot)⟩

end Lamfold.SquashFs
