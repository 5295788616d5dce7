import Lamfold.IsoAnswers
import Lamfold.NodeTables

/-!
Stable nodes on ISO 9660, SquashFS and UDF volumes: the keys of directory records, of
inode references and of File Entry blocks. The records of one ISO directory have
different keys, and none of them has the key of the root.
-/
namespace Lamfold

open Effects Bytes

namespace SquashFs

variable {ρ : Type} (codecs : Codecs ρ)

/-- A node is known by its inode reference. -/
def nodeTable : NodeTable SquashFs Volume ℕ SquashInode ℕ where
  vol := SquashFs.vol
  table := SquashFs.table
  put t fs := { fs with table := t }
  records vol inode := match inode.body with
    | .dir absBlock offset size => dirEntries codecs vol absBlock offset size
    | _ => .error (.err .notDirectory)
  key := id
  parse := parseInode codecs
  kind := SquashInode.kind
  vol_put _ _ := rfl
  table_put _ _ := rfl
  put_table _ := rfl

theorem readDir_eq (dir : NodeId) : readDir codecs dir = (nodeTable codecs).readDir dir := by
  apply op_ext
  intro fs
  have htable : (nodeTable codecs).table fs = fs.table := rfl
  have hvol : (nodeTable codecs).vol fs = fs.vol := rfl
  rw [NodeTable.exec_readDir, htable, hvol]
  unfold readDir
  rw [exec_bind, exec_inode]
  cases fs.table.inode dir with
  | error e => rfl
  | ok inode =>
    rw [ok_bind]
    unfold nodeTable
    dsimp only
    cases inode.body with
    | dir absBlock offset size =>
      dsimp only
      rw [exec_bind, exec_get]
      dsimp only
      rw [exec_bind, exec_lift]
      cases dirEntries codecs fs.vol absBlock offset size with
      | error e => rfl
      | ok found => rfl
    | file file => rfl
    | symlink target => rfl
    | other => rfl

theorem lookup_eq (dir : NodeId) (name : Str) :
    lookup codecs dir name = (nodeTable codecs).lookupAll dir name := by
  unfold lookup NodeTable.lookupAll
  rw [readDir_eq]

theorem lists : (nodeTable codecs).Lists fun _ : Unit => frontend codecs where
  follows := by
    intro _ start
    refine frontend_keeps ?_
    intro fs entries _
    exact (nodeTable codecs).onTable_follows start ((nodeTable codecs).internAll_grown fs.vol entries)
  readDir _ dir := readDir_eq codecs dir
  metadata := by
    intro _ node fs inode hinode
    refine Repeats.bind Follows.trans (NodeTable.repeats_inode hinode) fun _ _ _ => ?_
    exact .pure Follows.refl _
  readAt := by
    intro _ node fs inode off buf hinode
    refine Repeats.bind Follows.trans (NodeTable.repeats_inode hinode) fun inode t _ => ?_
    split
    · rename_i file _
      exact NodeTable.repeats_vol (fun vol => liftM (readFile codecs vol inode.size file off buf))
        (.lift Follows.refl _)
    · exact .ite (fun _ => .throw Follows.refl _) fun _ => .throw Follows.refl _
  readLink := by
    intro _ node fs inode hinode
    refine Repeats.bind Follows.trans (NodeTable.repeats_inode hinode) fun inode t _ => ?_
    split
    · exact .pure Follows.refl _
    · exact .pure Follows.refl _

end SquashFs

namespace Udf

/-- A node is known by the block of its File Entry. -/
def nodeTable : NodeTable Udf Volume ℕ UdfInode ℕ where
  vol := Udf.vol
  table := Udf.table
  put t u := { u with table := t }
  records vol inode :=
    if inode.kind ≠ .directory then .error (.err .notDirectory)
    else do
      let data ← readAll vol inode
      parseFids data vol.partitionStart
  key := id
  parse := readFe
  kind := UdfInode.kind
  vol_put _ _ := rfl
  table_put _ _ := rfl
  put_table _ := rfl

theorem readDir_eq (dir : NodeId) : readDir dir = nodeTable.readDir dir := by
  apply op_ext
  intro u
  have htable : nodeTable.table u = u.table := rfl
  have hvol : nodeTable.vol u = u.vol := rfl
  rw [NodeTable.exec_readDir, htable, hvol]
  unfold readDir
  rw [exec_bind, exec_inode]
  cases u.table.inode dir with
  | error e => rfl
  | ok inode =>
    rw [ok_bind]
    unfold nodeTable
    dsimp only
    split
    · rfl
    · rw [exec_bind, exec_get]
      dsimp only
      rw [exec_bind, exec_lift]
      cases readAll u.vol inode with
      | error e => rfl
      | ok data =>
        dsimp only
        rw [exec_bind, exec_lift, ok_bind]
        cases parseFids data u.vol.partitionStart with
        | error e => rfl
        | ok found => rfl

theorem lookup_eq (dir : NodeId) (name : Str) : lookup dir name = nodeTable.lookupAll dir name := by
  unfold lookup NodeTable.lookupAll
  rw [readDir_eq]

theorem lists : nodeTable.Lists fun _ : Unit => frontend where
  follows := by
    intro _ start
    refine frontend_keeps ?_
    intro u fids _
    exact nodeTable.onTable_follows start (nodeTable.internAll_grown u.vol fids)
  readDir _ dir := readDir_eq dir
  metadata := by
    intro _ node u inode hinode
    refine Repeats.bind Follows.trans (NodeTable.repeats_inode hinode) fun _ _ _ => ?_
    exact .pure Follows.refl _
  readAt := by
    intro _ node u inode off buf hinode
    refine Repeats.bind Follows.trans (NodeTable.repeats_inode hinode) fun inode t _ => ?_
    refine .ite (fun _ => .throw Follows.refl _) fun _ => ?_
    refine .ite (fun _ => .pure Follows.refl _) fun _ => ?_
    apply NodeTable.repeats_vol fun vol => do
      let data ← (readData vol inode.data off (min buf.length (inode.size - off)) : Outcome _)
      return (data.length, overwrite buf 0 data)
    exact Repeats.bind Follows.trans (.lift Follows.refl _) fun _ _ _ => .pure Follows.refl _
  readLink _ := .pure Follows.refl _

end Udf

namespace Iso9660

section Keys

variable {vol : Volume} {dirLba pos : ℕ} {buf : List UInt8} {entries : List (Str × Inode)}

theorem addExtent_key {fi : List UInt8} {isDir : Bool} {lba size : ℕ} {inode inode' : Inode}
    (h : addExtent buf fi isDir lba size inode = .ok inode') : inode'.key = inode.key := by
  obtain ⟨-, h⟩ := ite_error_eq_ok.mp h
  obtain ⟨first, -, h⟩ := bind_eq_ok.mp h
  obtain ⟨-, h⟩ := ite_error_eq_ok.mp h
  obtain ⟨-, h⟩ := ite_error_eq_ok.mp h
  obtain ⟨total, -, h⟩ := bind_eq_ok.mp h
  obtain rfl := Except.ok.inj h
  rfl

theorem newEntry_key {record fi : List UInt8} {isDir : Bool} {lba size : ℕ} {entry : Str × Inode}
    (h : newEntry vol dirLba pos record fi isDir lba size = .ok entry) :
    entry.2.key = (dirLba, pos) := by
  obtain ⟨name, -, h⟩ := bind_eq_ok.mp h
  obtain ⟨rr, -, h⟩ := bind_eq_ok.mp h
  obtain rfl := Except.ok.inj h
  rfl

/-- The key of the file that is open, or of the one that the next record starts. -/
def openKey (dirLba pos : ℕ) (pending : Option (Str × Inode)) : ℕ × ℕ :=
  (pending.map fun first => first.2.key).getD (dirLba, pos)

/-- A record leaves the open file as it is, completes it or leaves it open. -/
theorem readRecord_key {record fi : List UInt8} {pending pending' : Option (Str × Inode)}
    {done : List (Str × Inode)}
    (h : readRecord vol dirLba buf pos record fi pending = .ok (done, pending')) :
    (done = [] ∧ pending' = pending) ∨
      ∃ entry : Str × Inode, entry.2.key = openKey dirLba pos pending ∧
        ((done = [entry] ∧ pending' = none) ∨ (done = [] ∧ pending' = some entry)) := by
  unfold readRecord at h
  split at h
  · obtain ⟨rfl, rfl⟩ := Prod.mk.inj (Except.ok.inj h)
    exact .inl ⟨rfl, rfl⟩
  obtain ⟨flags, -, h⟩ := bind_eq_ok.mp h
  obtain ⟨lba, -, h⟩ := bind_eq_ok.mp h
  obtain ⟨size, -, h⟩ := bind_eq_ok.mp h
  have hsplit : ∀ {p : Prop} [Decidable p] {entry : Str × Inode},
      entry.2.key = openKey dirLba pos pending →
      (Except.ok (if p then ([], some entry) else ([entry], none)) :
        Outcome (List (Str × Inode) × Option (Str × Inode))) = .ok (done, pending') →
        ∃ entry : Str × Inode, entry.2.key = openKey dirLba pos pending ∧
          ((done = [entry] ∧ pending' = none) ∨ (done = [] ∧ pending' = some entry)) := by
    intro p _ entry hkey h
    have h := Except.ok.inj h
    split at h
    · obtain ⟨rfl, rfl⟩ := Prod.mk.inj h
      exact ⟨entry, hkey, .inr ⟨rfl, rfl⟩⟩
    · obtain ⟨rfl, rfl⟩ := Prod.mk.inj h
      exact ⟨entry, hkey, .inl ⟨rfl, rfl⟩⟩
  right
  cases pending with
  | some first =>
    obtain ⟨inode, hinode, h⟩ := bind_eq_ok.mp h
    exact hsplit (addExtent_key hinode) h
  | none =>
    obtain ⟨entry, hentry, h⟩ := bind_eq_ok.mp h
    exact hsplit (newEntry_key hentry) h

/-- Keys of records of the directory that stand in order from `lo` on, before `hi`. -/
structure InOrder (dirLba lo hi : ℕ) (entries : List (Str × Inode)) : Prop where
  block : ∀ entry ∈ entries, entry.2.key.1 = dirLba
  lower : ∀ entry ∈ entries, lo ≤ entry.2.key.2
  upper : ∀ entry ∈ entries, entry.2.key.2 < hi
  sorted : entries.Pairwise fun a b => a.2.key.2 < b.2.key.2

theorem InOrder.nil {lo hi : ℕ} : InOrder dirLba lo hi [] :=
  ⟨List.forall_mem_nil _, List.forall_mem_nil _, List.forall_mem_nil _, .nil⟩

theorem InOrder.cons {lo lo' hi : ℕ} {entry : Str × Inode} (hblock : entry.2.key.1 = dirLba)
    (hlo : lo ≤ entry.2.key.2) (hhi : entry.2.key.2 < hi) (hlt : entry.2.key.2 < lo')
    (h : InOrder dirLba lo' hi entries) : InOrder dirLba lo hi (entry :: entries) where
  block := List.forall_mem_cons.mpr ⟨hblock, h.block⟩
  lower := List.forall_mem_cons.mpr
    ⟨hlo, fun e he => (hlo.trans hlt.le).trans (h.lower e he)⟩
  upper := List.forall_mem_cons.mpr ⟨hhi, h.upper⟩
  sorted := List.pairwise_cons.mpr ⟨fun e he => hlt.trans_le (h.lower e he), h.sorted⟩

theorem InOrder.weaken {lo lo' hi : ℕ} (h : InOrder dirLba lo' hi entries) (hle : lo ≤ lo') :
    InOrder dirLba lo hi entries :=
  ⟨h.block, fun e he => hle.trans (h.lower e he), h.upper, h.sorted⟩

/-- The open file starts in this directory, before the scan. -/
def Behind (dirLba pos size : ℕ) (pending : Option (Str × Inode)) : Prop :=
  ∀ first, pending = some first →
    first.2.key.1 = dirLba ∧ first.2.key.2 < pos ∧ first.2.key.2 < size

theorem openKey_of_behind {size : ℕ} {pending : Option (Str × Inode)}
    (h : Behind dirLba pos size pending) (hpos : pos < size) :
    (openKey dirLba pos pending).1 = dirLba ∧ (openKey dirLba pos pending).2 ≤ pos ∧
      (openKey dirLba pos pending).2 < size := by
  cases pending with
  | none => exact ⟨rfl, le_refl pos, hpos⟩
  | some first =>
    obtain ⟨hblock, hbehind, hsize⟩ := h first rfl
    exact ⟨hblock, hbehind.le, hsize⟩

theorem openKey_le {pending : Option (Str × Inode)} {pos' : ℕ} (hle : pos ≤ pos') :
    (openKey dirLba pos pending).2 ≤ (openKey dirLba pos' pending).2 := by
  cases pending with
  | none => exact hle
  | some first => exact le_refl _

/-- The scan finds the records of the directory in the order in which they stand. -/
theorem entriesFrom_inOrder {pending : Option (Str × Inode)}
    (hpending : Behind dirLba pos buf.length pending)
    (h : entriesFrom vol dirLba buf pending pos = .ok entries) :
    InOrder dirLba (openKey dirLba pos pending).2 buf.length entries := by
  fun_induction entriesFrom vol dirLba buf pending pos generalizing entries with
  | case1 pending pos hpos ihPadding ihRecord =>
    obtain ⟨len, -, h⟩ := bind_eq_ok.mp h
    split at h
    · rename_i hzero
      dsimp only at h
      split at h
      · rw [finishScan_eq_ok h]
        exact .nil
      · rename_i hnext
        have hlater : Behind dirLba ((pos / vol.blockSize + 1) * vol.blockSize) buf.length pending := by
          intro first hfirst
          obtain ⟨hblock, hbehind, hsize⟩ := hpending first hfirst
          exact ⟨hblock, by omega, hsize⟩
        exact (ihPadding hnext hlater h).weaken (openKey_le (by omega))
    · rename_i hzero
      obtain ⟨⟨record, fi⟩, -, h⟩ := bind_eq_ok.mp h
      obtain ⟨⟨found, pending'⟩, hread, h⟩ := bind_eq_ok.mp h
      obtain ⟨rest, hrest, h⟩ := bind_eq_ok.mp h
      obtain rfl := Except.ok.inj h
      have hopen := openKey_of_behind hpending hpos
      rcases readRecord_key hread with ⟨rfl, rfl⟩ | ⟨entry, hkey, ⟨rfl, rfl⟩ | ⟨rfl, rfl⟩⟩
      · have hlater : Behind dirLba (pos + len.toNat) buf.length pending' := by
          intro first hfirst
          obtain ⟨hblock, hbehind, hsize⟩ := hpending first hfirst
          exact ⟨hblock, by omega, hsize⟩
        exact (ihRecord len hzero pending' hlater hrest).weaken (openKey_le (by omega))
      · have hlater : Behind dirLba (pos + len.toNat) buf.length none := by simp [Behind]
        have htail := ihRecord len hzero none hlater hrest
        rw [← hkey] at hopen ⊢
        refine InOrder.cons hopen.1 (le_refl _) hopen.2.2 ?_ htail
        change entry.2.key.2 < pos + len.toNat
        omega
      · rw [← hkey] at hopen ⊢
        have hlater : Behind dirLba (pos + len.toNat) buf.length (some entry) := by
          intro first hfirst
          obtain rfl := Option.some.inj hfirst
          exact ⟨hopen.1, by omega, hopen.2.2⟩
        exact ihRecord len hzero (some entry) hlater hrest
  | case2 pending pos hpos =>
    rw [finishScan_eq_ok h]
    exact .nil

/-- The records of a directory have different keys, none of them the key of the root. -/
theorem forEachEntry_keys {dir : Inode} (h : forEachEntry vol dir = .ok entries) :
    (entries.map fun entry => entry.2.key).Nodup ∧
      rootKey ∉ entries.map fun entry => entry.2.key := by
  obtain ⟨buf, hbuf, h⟩ := bind_eq_ok.mp h
  have horder := entriesFrom_inOrder (by simp [Behind]) h
  constructor
  · apply List.Pairwise.map _ _ horder.sorted
    intro a b hlt heq
    rw [heq] at hlt
    exact lt_irrefl _ hlt
  · intro hroot
    obtain ⟨entry, hentry, hkey⟩ := List.mem_map.mp hroot
    have hupper := horder.upper entry hentry
    rw [hkey] at hupper
    have hle := hupper.trans_le (readDirExtent_lt hbuf)
    exact absurd hle (by decide)

end Keys

/-- A node is known by the place of its record: the block of the directory and the
offset there. -/
def nodeTable : NodeTable Iso9660 Volume (ℕ × ℕ) Inode Inode where
  vol := Iso9660.vol
  table := Iso9660.table
  put t iso := { iso with table := t }
  records vol inode :=
    if inode.kind ≠ .directory then .error (.err .notDirectory) else forEachEntry vol inode
  key := Inode.key
  parse _ inode := .ok inode
  kind := Inode.kind
  vol_put _ _ := rfl
  table_put _ _ := rfl
  put_table _ := rfl

theorem exec_dirEntries (dir : NodeId) (iso : Iso9660) :
    exec (dirEntries dir) iso = (iso.table.inode dir >>= nodeTable.records iso.vol, iso) := by
  have hinode : exec (inode dir) iso = (iso.table.inode dir, iso) := rfl
  unfold dirEntries
  rw [exec_bind, hinode]
  cases iso.table.inode dir with
  | error e => rfl
  | ok inode =>
    dsimp only
    rw [exec_ite, ok_bind]
    unfold nodeTable
    dsimp only
    split
    · rfl
    · rfl

theorem readDir_eq (dir : NodeId) : readDir dir = nodeTable.readDir dir := by
  apply op_ext
  intro iso
  have htable : nodeTable.table iso = iso.table := rfl
  have hvol : nodeTable.vol iso = iso.vol := rfl
  rw [NodeTable.exec_readDir, htable, hvol]
  unfold readDir
  rw [exec_bind, exec_dirEntries]
  cases iso.table.inode dir >>= nodeTable.records iso.vol with
  | error e => rfl
  | ok found => rfl

theorem lookup_eq (dir : NodeId) (name : Str) : lookup dir name = nodeTable.lookupOne dir name := by
  apply op_ext
  intro iso
  have htable : nodeTable.table iso = iso.table := rfl
  have hvol : nodeTable.vol iso = iso.vol := rfl
  rw [NodeTable.exec_lookupOne, htable, hvol]
  unfold lookup
  rw [exec_bind, exec_dirEntries]
  cases iso.table.inode dir >>= nodeTable.records iso.vol with
  | error e => rfl
  | ok found =>
    dsimp only
    cases found.find? fun entry => entry.1 = name with
    | none => rfl
    | some entry => rfl

section Methods

variable {ρ : Type} (zisofs : Bool) (codecs : Codecs ρ)

theorem lists : nodeTable.Lists fun _ : Unit => frontend zisofs codecs where
  follows := by
    intro _ start
    refine frontend_keeps (P := start.table.Grown) ?_ (fun iso hiso => hiso.grown) ?_
    · intro t key inode _ ht
      exact ht.trans (t.intern_grown key inode)
    · intro t iso ht hiso
      exact ⟨hiso.vol_eq, ht⟩
  readDir _ dir := readDir_eq dir
  metadata := by
    intro _ node iso inode hinode
    refine Repeats.bind Follows.trans (NodeTable.repeats_inode hinode) fun _ _ _ => ?_
    exact .pure Follows.refl _
  readAt := by
    intro _ node iso inode off buf hinode
    refine Repeats.bind Follows.trans (NodeTable.repeats_inode hinode) fun inode t _ => ?_
    refine .ite (fun _ => .throw Follows.refl _) fun _ => ?_
    cases inode.zisofs with
    | some zi =>
      apply NodeTable.repeats_vol fun vol =>
        if zisofs then liftM (readZisofs codecs vol inode zi off buf)
        else throw (.err (.unsupported "zisofs-compressed file: enable the `zisofs` feature"))
      exact .ite (fun _ => .lift Follows.refl _) fun _ => .throw Follows.refl _
    | none =>
      apply NodeTable.repeats_vol fun vol => liftM (readPlain vol inode off buf)
      exact .lift Follows.refl _
  readLink := by
    intro _ node iso inode hinode
    refine Repeats.bind Follows.trans (NodeTable.repeats_inode hinode) fun _ _ _ => ?_
    exact .pure Follows.refl _

end Methods

end Iso9660

/-- Nodes of mounted volumes are stable, and each record of an ISO directory has a key
of its own. -/
theorem mounted_nodes_stable {ρ : Type} (zisofs : Bool) (codecs : Codecs ρ) (src : Source) :
    (∀ iso, Iso9660.mount src = .ok iso →
      StableNodes (fun _ : Unit => Iso9660.frontend zisofs codecs) Iso9660.table
        (Iso9660.nodeTable.keyed iso.vol) iso ∧
      ∀ inode listed, Iso9660.nodeTable.keyed iso.vol inode = .ok listed →
        (listed.map Prod.snd).Nodup ∧ Iso9660.rootKey ∉ listed.map Prod.snd) ∧
    (∀ fs, SquashFs.mount codecs src = .ok fs →
      StableNodes (fun _ : Unit => SquashFs.frontend codecs) SquashFs.table
        ((SquashFs.nodeTable codecs).keyed fs.vol) fs) ∧
    ∀ u, Udf.mount src = .ok u →
      StableNodes (fun _ : Unit => Udf.frontend) Udf.table (Udf.nodeTable.keyed u.vol) u := by
  refine ⟨?_, ?_, ?_⟩
  · intro iso _
    have hlists := Iso9660.lists zisofs codecs
    have hinterning := hlists.interning_one (fun _ => Iso9660.lookup_eq) fun _ inode => ⟨inode, rfl⟩
    refine ⟨hinterning.stable iso, ?_⟩
    intro inode listed hlisted
    obtain ⟨found, hfound, hlisted⟩ := bind_eq_ok.mp hlisted
    obtain rfl := Except.ok.inj hlisted
    obtain ⟨-, hfound⟩ := ite_error_eq_ok.mp hfound
    have hkeys := Iso9660.forEachEntry_keys hfound
    rw [List.map_map]
    exact hkeys
  · intro fs _
    exact ((SquashFs.lists codecs).interning_all fun _ => SquashFs.lookup_eq codecs).stable fs
  · intro u _
    exact (Udf.lists.interning_all fun _ => Udf.lookup_eq).stable u

end Lamfold
