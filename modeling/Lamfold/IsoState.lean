import Lamfold.Iso9660

/-!
What holds of a mounted ISO 9660 volume in every state. Numbers read from records
have the widths of their fields; the size of a file is that of its extents; a node
has a target exactly when it is a symlink.
-/
namespace Lamfold

open Effects Bytes Utf8 RockRidge

namespace RockRidge

/-- The parameters have the widths of their fields. -/
def RrInfo.Bounded (info : RrInfo) : Prop :=
  ∀ zi, info.zisofs = some zi → zi.uncompressedSize < 2 ^ 32

structure Continuation.Bounded (ce : Continuation) : Prop where
  block_lt : ce.block < 2 ^ 32
  offset_lt : ce.offset < 2 ^ 32
  len_lt : ce.len < 2 ^ 32

theorem le32_lt {data : List UInt8} {o v : ℕ} (h : le32 data o = .ok v) : v < 2 ^ 32 := by
  obtain ⟨field, hfield, h⟩ := bind_eq_ok.mp h
  obtain rfl := Except.ok.inj h
  have hlt := leNat_lt field
  rwa [slice_length (unwrap_eq_ok.mp hfield)] at hlt

theorem entry_bounded {parser parser' : RrParser} {sig data : List UInt8}
    (hparser : parser.info.Bounded) (h : parser.entry sig data = .ok parser') :
    parser'.info.Bounded := by
  unfold RrParser.entry at h
  split at h
  · split at h
    · obtain rfl := Except.ok.inj h
      exact hparser
    · split at h
      · obtain rfl := Except.ok.inj h
        exact hparser
      · obtain rfl := Except.ok.inj h
        exact hparser
  split at h
  · split at h
    · obtain ⟨mode, -, h⟩ := bind_eq_ok.mp h
      obtain rfl := Except.ok.inj h
      exact hparser
    · obtain rfl := Except.ok.inj h
      exact hparser
  split at h
  · split at h
    · obtain rfl := Except.ok.inj h
      exact hparser
    · obtain ⟨⟨sl, slContinues⟩, -, h⟩ := bind_eq_ok.mp h
      obtain rfl := Except.ok.inj h
      exact hparser
  split at h
  · split at h
    · obtain ⟨algorithm, -, h⟩ := bind_eq_ok.mp h
      split at h
      · obtain ⟨log2, -, h⟩ := bind_eq_ok.mp h
        obtain ⟨size, hsize, h⟩ := bind_eq_ok.mp h
        obtain rfl := Except.ok.inj h
        intro zi hzi
        obtain rfl := Option.some.inj hzi
        exact le32_lt hsize
      · obtain rfl := Except.ok.inj h
        exact hparser
    · obtain rfl := Except.ok.inj h
      exact hparser
  · obtain rfl := Except.ok.inj h
    exact hparser

theorem continuation_bounded {sig data : List UInt8} {next next' : Option Continuation}
    (hnext : ∀ ce, next = some ce → ce.Bounded) (h : continuation sig data next = .ok next') :
    ∀ ce, next' = some ce → ce.Bounded := by
  unfold continuation at h
  split at h
  · obtain ⟨block, hblock, h⟩ := bind_eq_ok.mp h
    obtain ⟨offset, hoffset, h⟩ := bind_eq_ok.mp h
    obtain ⟨len, hlen, h⟩ := bind_eq_ok.mp h
    obtain rfl := Except.ok.inj h
    intro ce hce
    obtain rfl := Option.some.inj hce
    exact ⟨le32_lt hblock, le32_lt hoffset, le32_lt hlen⟩
  · obtain rfl := Except.ok.inj h
    exact hnext

theorem feedFrom_bounded {su : List UInt8} {parser parser' : RrParser}
    {next next' : Option Continuation} {p : ℕ} (hparser : parser.info.Bounded)
    (hnext : ∀ ce, next = some ce → ce.Bounded)
    (h : parser.feedFrom su next p = .ok (parser', next')) :
    parser'.info.Bounded ∧ ∀ ce, next' = some ce → ce.Bounded := by
  fun_induction RrParser.feedFrom su parser next p with
  | case1 parser next p hp ih =>
    obtain ⟨len, -, h⟩ := bind_eq_ok.mp h
    split at h
    · obtain ⟨rfl, rfl⟩ := Prod.mk.inj (Except.ok.inj h)
      exact ⟨hparser, hnext⟩
    · rename_i hlen
      obtain ⟨sig, -, h⟩ := bind_eq_ok.mp h
      obtain ⟨data, -, h⟩ := bind_eq_ok.mp h
      split at h
      · obtain ⟨rfl, rfl⟩ := Prod.mk.inj (Except.ok.inj h)
        exact ⟨hparser, hnext⟩
      · obtain ⟨parser₁, hentry, h⟩ := bind_eq_ok.mp h
        obtain ⟨next₁, hce, h⟩ := bind_eq_ok.mp h
        exact ih len hlen parser₁ next₁ (entry_bounded hparser hentry)
          (continuation_bounded hnext hce) h
  | case2 parser next p hp =>
    obtain ⟨rfl, rfl⟩ := Prod.mk.inj (Except.ok.inj h)
    exact ⟨hparser, hnext⟩

theorem feed_bounded {su : List UInt8} {parser parser' : RrParser} {next : Option Continuation}
    (hparser : parser.info.Bounded) (h : parser.feed su = .ok (parser', next)) :
    parser'.info.Bounded ∧ ∀ ce, next = some ce → ce.Bounded :=
  feedFrom_bounded hparser (by simp) h

theorem default_bounded : RrParser.default.info.Bounded := by simp [RrInfo.Bounded, RrParser.default]

theorem finish_bounded {parser : RrParser} (hparser : parser.info.Bounded) :
    parser.finish.Bounded := by
  have hnamed : ∀ name : Option Str, RrInfo.Bounded { parser.info with name := name } :=
    fun _ => hparser
  have htarget : ∀ {info : RrInfo} {p : Prop} [Decidable p], info.Bounded →
      RrInfo.Bounded (if p then { info with symlinkTarget := some parser.sl } else info) := by
    intro info p _ hinfo
    split
    · exact hinfo
    · exact hinfo
  unfold RrParser.finish
  refine htarget ?_
  split
  · split
    · split
      · exact hnamed _
      · exact hparser
    · exact hparser
  · exact hparser

end RockRidge

namespace Iso9660

/-- Numbers with the widths of their fields, a size that is the sum of the extents, and
a target exactly when the kind says so. -/
structure Inode.Bounded (inode : Inode) : Prop where
  lba_lt : inode.lba < 2 ^ 32
  extents_lt : ∀ e ∈ inode.extents, e.1 < 2 ^ 32 ∧ e.2 < 2 ^ 32
  count_le : inode.extents.length ≤ maxExtents
  size_eq : inode.size = totalLen Prod.snd inode.extents
  kind_iff : inode.kind = .symlink ↔ inode.linkTarget.isSome
  zisofs_lt : ∀ zi, inode.zisofs = some zi → zi.uncompressedSize < 2 ^ 32

theorem totalLen_extents_le {es : List (ℕ × ℕ)} (h : ∀ e ∈ es, e.1 < 2 ^ 32 ∧ e.2 < 2 ^ 32) :
    totalLen Prod.snd es ≤ es.length * 2 ^ 32 := by
  induction es with
  | nil => simp
  | cons e es ih =>
    have hfirst := (h e List.mem_cons_self).2
    have hrest := ih fun e' he' => h e' (List.mem_cons_of_mem _ he')
    rw [totalLen_cons, List.length_cons, Nat.succ_mul]
    omega

theorem Inode.Bounded.size_lt {inode : Inode} (h : inode.Bounded) : inode.size < 2 ^ 45 := by
  have htotal := totalLen_extents_le h.extents_lt
  have hcount := h.count_le
  rw [← h.size_eq] at htotal
  unfold maxExtents at hcount
  omega

section Records

variable {vol : Volume}

theorem parseContinuations_bounded {parser parser' : RrParser} {next : Option Continuation}
    {left : ℕ} (hparser : parser.info.Bounded)
    (h : parseContinuations vol parser next left = .ok parser') : parser'.info.Bounded := by
  induction left generalizing parser next with
  | zero =>
    cases next with
    | none =>
      obtain rfl := Except.ok.inj h
      exact hparser
    | some ce => exact absurd h (fail_ne_ok _ _)
  | succ left ih =>
    cases next with
    | none =>
      obtain rfl := Except.ok.inj h
      exact hparser
    | some ce =>
      obtain ⟨-, h⟩ := ite_error_eq_ok.mp h
      obtain ⟨area, -, h⟩ := bind_eq_ok.mp h
      obtain ⟨⟨parser₁, next₁⟩, hfeed, h⟩ := bind_eq_ok.mp h
      exact ih (feed_bounded hparser hfeed).1 h

theorem recordInfo_bounded {record : List UInt8} {fiLen : ℕ} {info : RrInfo}
    (h : recordInfo vol record fiLen = .ok info) : info.Bounded := by
  unfold recordInfo at h
  split at h
  · obtain ⟨⟨parser, next⟩, hfeed, h⟩ := bind_eq_ok.mp h
    obtain ⟨last, hlast, h⟩ := bind_eq_ok.mp h
    obtain rfl := Except.ok.inj h
    have hfirst := (feed_bounded default_bounded hfeed).1
    exact finish_bounded (parseContinuations_bounded hfirst hlast)
  · obtain rfl := Except.ok.inj h
    exact default_bounded

theorem newEntry_bounded {dirLba pos lba size : ℕ} {record fi : List UInt8} {isDir : Bool}
    {entry : Str × Inode} (hlba : lba < 2 ^ 32) (hsize : size < 2 ^ 32)
    (h : newEntry vol dirLba pos record fi isDir lba size = .ok entry) : entry.2.Bounded := by
  obtain ⟨name, -, h⟩ := bind_eq_ok.mp h
  obtain ⟨rr, hrr, h⟩ := bind_eq_ok.mp h
  obtain rfl := Except.ok.inj h
  refine ⟨hlba, ?_, Nat.le_of_lt (by decide : 1 < maxExtents), rfl, ?_, recordInfo_bounded hrr⟩
  · intro e he
    rw [List.mem_singleton.mp he]
    exact ⟨hlba, hsize⟩
  · dsimp only
    cases rr.symlinkTarget with
    | some target => simp
    | none => cases isDir <;> simp

theorem addExtent_bounded {buf fi : List UInt8} {isDir : Bool} {lba size : ℕ} {inode inode' : Inode}
    (hinode : inode.Bounded) (hlba : lba < 2 ^ 32) (hsize : size < 2 ^ 32)
    (h : addExtent buf fi isDir lba size inode = .ok inode') : inode'.Bounded := by
  obtain ⟨-, h⟩ := ite_error_eq_ok.mp h
  obtain ⟨first, -, h⟩ := bind_eq_ok.mp h
  obtain ⟨-, h⟩ := ite_error_eq_ok.mp h
  obtain ⟨hcount, h⟩ := ite_error_eq_ok.mp h
  obtain ⟨total, htotal, h⟩ := bind_eq_ok.mp h
  obtain ⟨-, rfl⟩ := fits_eq_ok.mp htotal
  obtain rfl := Except.ok.inj h
  refine ⟨hinode.lba_lt, ?_, ?_, ?_, hinode.kind_iff, hinode.zisofs_lt⟩
  · intro e he
    rcases List.mem_append.mp he with he | he
    · exact hinode.extents_lt e he
    · rw [List.mem_singleton.mp he]
      exact ⟨hlba, hsize⟩
  · rw [List.length_append, List.length_singleton]
    omega
  · unfold totalLen
    rw [List.map_append, List.sum_append, hinode.size_eq]
    rfl

theorem readRecord_bounded {dirLba pos : ℕ} {buf record fi : List UInt8}
    {pending pending' : Option (Str × Inode)} {done : List (Str × Inode)}
    (hpending : ∀ first, pending = some first → first.2.Bounded)
    (h : readRecord vol dirLba buf pos record fi pending = .ok (done, pending')) :
    (∀ entry ∈ done, entry.2.Bounded) ∧ ∀ first, pending' = some first → first.2.Bounded := by
  unfold readRecord at h
  split at h
  · obtain ⟨rfl, rfl⟩ := Prod.mk.inj (Except.ok.inj h)
    exact ⟨List.forall_mem_nil _, hpending⟩
  obtain ⟨flags, -, h⟩ := bind_eq_ok.mp h
  obtain ⟨lba, hlba, h⟩ := bind_eq_ok.mp h
  obtain ⟨size, hsize, h⟩ := bind_eq_ok.mp h
  have hlba : lba < 2 ^ 32 := leAt_lt hlba
  have hsize : size < 2 ^ 32 := leAt_lt hsize
  have hsplit : ∀ {p : Prop} [Decidable p] {entry : Str × Inode}, entry.2.Bounded →
      (Except.ok (if p then ([], some entry) else ([entry], none)) :
        Outcome (List (Str × Inode) × Option (Str × Inode))) = .ok (done, pending') →
        (∀ entry ∈ done, entry.2.Bounded) ∧
          ∀ first, pending' = some first → first.2.Bounded := by
    intro p _ entry hentry h
    have h := Except.ok.inj h
    split at h
    · obtain ⟨rfl, rfl⟩ := Prod.mk.inj h
      refine ⟨List.forall_mem_nil _, ?_⟩
      intro first hfirst
      exact Option.some.inj hfirst ▸ hentry
    · obtain ⟨rfl, rfl⟩ := Prod.mk.inj h
      refine ⟨?_, by simp⟩
      intro e he
      rw [List.mem_singleton.mp he]
      exact hentry
  cases pending with
  | some first =>
    obtain ⟨inode, hinode, h⟩ := bind_eq_ok.mp h
    exact hsplit (addExtent_bounded (hpending first rfl) hlba hsize hinode) h
  | none =>
    obtain ⟨entry, hentry, h⟩ := bind_eq_ok.mp h
    exact hsplit (newEntry_bounded hlba hsize hentry) h

theorem finishScan_eq_ok {pending : Option (Str × Inode)} {entries : List (Str × Inode)}
    (h : finishScan pending = .ok entries) : entries = [] := by
  obtain ⟨-, h⟩ := ite_error_eq_ok.mp h
  exact (Except.ok.inj h).symm

theorem entriesFrom_bounded {dirLba pos : ℕ} {buf : List UInt8} {pending : Option (Str × Inode)}
    {entries : List (Str × Inode)} (hpending : ∀ first, pending = some first → first.2.Bounded)
    (h : entriesFrom vol dirLba buf pending pos = .ok entries) :
    ∀ entry ∈ entries, entry.2.Bounded := by
  fun_induction entriesFrom vol dirLba buf pending pos generalizing entries with
  | case1 pending pos hpos ihPadding ihRecord =>
    obtain ⟨len, -, h⟩ := bind_eq_ok.mp h
    split at h
    · rename_i hzero
      dsimp only at h
      split at h
      · rw [finishScan_eq_ok h]
        exact List.forall_mem_nil _
      · rename_i hnext
        exact ihPadding hnext hpending h
    · rename_i hzero
      obtain ⟨⟨record, fi⟩, -, h⟩ := bind_eq_ok.mp h
      obtain ⟨⟨found, pending'⟩, hread, h⟩ := bind_eq_ok.mp h
      obtain ⟨rest, hrest, h⟩ := bind_eq_ok.mp h
      obtain rfl := Except.ok.inj h
      obtain ⟨hfound, hpending'⟩ := readRecord_bounded hpending hread
      intro entry hentry
      rcases List.mem_append.mp hentry with hentry | hentry
      · exact hfound entry hentry
      · exact ihRecord len hzero pending' hpending' hrest entry hentry
  | case2 pending pos hpos =>
    rw [finishScan_eq_ok h]
    exact List.forall_mem_nil _

theorem readDirExtent_lt {inode : Inode} {blockSize : ℕ} {src : Source} {buf : List UInt8}
    (h : readDirExtent src blockSize inode = .ok buf) : buf.length ≤ maxBootFileBytes := by
  obtain ⟨len, hlen, h⟩ := bind_eq_ok.mp h
  obtain ⟨off, -, h⟩ := bind_eq_ok.mp h
  obtain ⟨hle, rfl⟩ := checkedFullReadLen_eq_ok.mp hlen
  rw [Source.readAt_length h]
  exact hle

theorem forEachEntry_bounded {dir : Inode} {entries : List (Str × Inode)}
    (h : forEachEntry vol dir = .ok entries) : ∀ entry ∈ entries, entry.2.Bounded := by
  obtain ⟨buf, -, h⟩ := bind_eq_ok.mp h
  exact entriesFrom_bounded (by simp) h

end Records

theorem rootRecord_bounded {vd : List UInt8} {root : Inode} (h : rootRecord vd = .ok root) :
    root.Bounded := by
  obtain ⟨rdr, -, h⟩ := bind_eq_ok.mp h
  obtain ⟨lba, hlba, h⟩ := bind_eq_ok.mp h
  obtain ⟨size, hsize, h⟩ := bind_eq_ok.mp h
  obtain rfl := Except.ok.inj h
  have hlba : lba < 2 ^ 32 := leAt_lt hlba
  have hsize : size < 2 ^ 32 := leAt_lt hsize
  refine ⟨hlba, ?_, Nat.le_of_lt (by decide : 1 < maxExtents), rfl, by simp, by simp⟩
  intro e he
  rw [List.mem_singleton.mp he]
  exact ⟨hlba, hsize⟩

/-- What the descriptors say has the widths of its fields. -/
structure Vds.Bounded (found : Vds) : Prop where
  primary : ∀ p, found.primary = some p → p.blockSize < 2 ^ 16 ∧ p.root.Bounded
  jolietRoot : ∀ root, found.jolietRoot = some root → root.Bounded
  catalog_lt : ∀ lba, found.elToritoCatalogLba = some lba → lba < 2 ^ 32

/-- What a primary descriptor says, it reads from its fields. -/
theorem primaryVd_eq_ok {vd : List UInt8} {primary : PrimaryVd} (h : primaryVd vd = .ok primary) :
    leU16 vd 128 = .ok primary.blockSize ∧ rootRecord vd = .ok primary.root := by
  obtain ⟨blockSize, hblockSize, h⟩ := bind_eq_ok.mp h
  split at h
  · exact absurd h (fail_ne_ok _ _)
  · obtain ⟨root, hroot, h⟩ := bind_eq_ok.mp h
    obtain rfl := Except.ok.inj h
    exact ⟨hblockSize, hroot⟩

/-- What a descriptor adds to those before it. -/
theorem readVd_cases {vd : List UInt8} {type : UInt8} {found found' : Vds}
    (h : readVd vd type found = .ok found') :
    (∃ primary, primaryVd vd = .ok primary ∧ found' = { found with primary := some primary }) ∨
      (∃ lba, leU32 vd etCatalogPtrOffset = .ok lba ∧
        found' = { found with elToritoCatalogLba := some lba }) ∨
      (∃ root, rootRecord vd = .ok root ∧ found' = { found with jolietRoot := some root }) ∨
      found' = found := by
  unfold readVd at h
  split at h
  · obtain ⟨primary, hprimary, h⟩ := bind_eq_ok.mp h
    exact .inl ⟨primary, hprimary, (Except.ok.inj h).symm⟩
  right
  split at h
  · split at h
    · obtain ⟨lba, hlba, h⟩ := bind_eq_ok.mp h
      exact .inl ⟨lba, hlba, (Except.ok.inj h).symm⟩
    · exact .inr (.inr (Except.ok.inj h).symm)
  right
  split at h
  · obtain ⟨esc, -, h⟩ := bind_eq_ok.mp h
    split at h
    · obtain ⟨root, hroot, h⟩ := bind_eq_ok.mp h
      exact .inl ⟨root, hroot, (Except.ok.inj h).symm⟩
    · exact .inr (Except.ok.inj h).symm
  · exact .inr (Except.ok.inj h).symm

/-- What every descriptor keeps, reading them all keeps. -/
theorem scanVds_keeps {P : Vds → Prop}
    (hP : ∀ {vd type found found'}, P found → readVd vd type found = .ok found' → P found')
    {src : Source} {count i : ℕ} {found found' : Vds} (hfound : P found)
    (h : scanVds src count i found = .ok found') : P found' := by
  induction count generalizing i found with
  | zero =>
    obtain rfl := Except.ok.inj h
    exact hfound
  | succ count ih =>
    obtain ⟨off, -, h⟩ := bind_eq_ok.mp h
    obtain ⟨stop, -, h⟩ := bind_eq_ok.mp h
    split at h
    · obtain rfl := Except.ok.inj h
      exact hfound
    obtain ⟨vd, -, h⟩ := bind_eq_ok.mp h
    obtain ⟨id, -, h⟩ := bind_eq_ok.mp h
    obtain ⟨-, h⟩ := ite_error_eq_ok.mp h
    obtain ⟨type, -, h⟩ := bind_eq_ok.mp h
    split at h
    · obtain rfl := Except.ok.inj h
      exact hfound
    obtain ⟨found₁, hread, h⟩ := bind_eq_ok.mp h
    exact ih (hP hfound hread) h

theorem readVd_bounded {vd : List UInt8} {type : UInt8} {found found' : Vds}
    (hfound : found.Bounded) (h : readVd vd type found = .ok found') : found'.Bounded := by
  rcases readVd_cases h with ⟨primary, hprimary, rfl⟩ | ⟨lba, hlba, rfl⟩ | ⟨root, hroot, rfl⟩ | rfl
  · obtain ⟨hblockSize, hroot⟩ := primaryVd_eq_ok hprimary
    refine ⟨?_, hfound.jolietRoot, hfound.catalog_lt⟩
    intro p hp
    obtain rfl := Option.some.inj hp
    exact ⟨leAt_lt hblockSize, rootRecord_bounded hroot⟩
  · refine ⟨hfound.primary, hfound.jolietRoot, ?_⟩
    intro lba' hlba'
    obtain rfl := Option.some.inj hlba'
    exact leAt_lt hlba
  · refine ⟨hfound.primary, ?_, hfound.catalog_lt⟩
    intro root' hroot'
    obtain rfl := Option.some.inj hroot'
    exact rootRecord_bounded hroot
  · exact hfound

/-- A volume with fields of their widths. -/
structure Volume.Bounded (vol : Volume) : Prop where
  blockSize_lt : vol.blockSize < 2 ^ 16
  catalog_lt : ∀ lba, vol.elToritoCatalogLba = some lba → lba < 2 ^ 32

theorem noVds_bounded : Vds.Bounded ⟨none, none, none⟩ := ⟨by simp, by simp, by simp⟩

theorem openVolume_bounded {src : Source} {vol : Volume} {root : Inode}
    (h : openVolume src = .ok (vol, root)) : vol.src = src ∧ vol.Bounded ∧ root.Bounded := by
  obtain ⟨found, hfound, h⟩ := bind_eq_ok.mp h
  obtain ⟨primary, hprimary, h⟩ := bind_eq_ok.mp h
  obtain ⟨susp, -, h⟩ := bind_eq_ok.mp h
  have hbounded := scanVds_keeps readVd_bounded noVds_bounded hfound
  obtain ⟨hbs, hroot⟩ := hbounded.primary primary (okOr_eq_ok.mp hprimary)
  split at h
  · obtain ⟨rfl, rfl⟩ := Prod.mk.inj (Except.ok.inj h)
    exact ⟨rfl, ⟨hbs, hbounded.catalog_lt⟩, hroot⟩
  · rename_i joliet hjoliet
    obtain ⟨rfl, rfl⟩ := Prod.mk.inj (Except.ok.inj h)
    exact ⟨rfl, ⟨hbs, hbounded.catalog_lt⟩, hbounded.jolietRoot _ hjoliet⟩
  · obtain ⟨rfl, rfl⟩ := Prod.mk.inj (Except.ok.inj h)
    exact ⟨rfl, ⟨hbs, hbounded.catalog_lt⟩, hroot⟩

section Runs

variable {ρ : Type} {zisofs : Bool} {codecs : Codecs ρ}

/-- A node that a directory of the volume lists. -/
def Listed (vol : Volume) (inode : Inode) : Prop :=
  ∃ dir entries, forEachEntry vol dir = .ok entries ∧ ∃ name, (name, inode) ∈ entries

theorem Listed.bounded {vol : Volume} {inode : Inode} (h : Listed vol inode) : inode.Bounded := by
  obtain ⟨dir, entries, hentries, name, hmem⟩ := h
  exact forEachEntry_bounded hentries _ hmem

/-- The entries that `dirEntries` returns are listed. -/
theorem dirEntries_triple (P : Iso9660 → Prop) (dir : NodeId) :
    Triple P (dirEntries dir)
      (fun entries iso => P iso ∧ ∀ entry ∈ entries, Listed iso.vol entry.2) P := by
  refine Triple.bind (Preserves.triple (preserves_reading P _)) ?_
  intro dirInode
  refine Triple.ite (fun _ => Triple.throw fun _ h => h) fun _ => ?_
  refine Triple.get_bind ?_
  intro iso hiso
  refine Triple.lift ?_ ?_
  · intro t entries ht hentries
    subst ht
    exact ⟨hiso, fun entry hentry => ⟨dirInode, entries, hentries, entry.1, hentry⟩⟩
  · intro t ht
    exact ht ▸ hiso

/-- What interning listed nodes keeps, every operation keeps. -/
theorem frontend_keeps_listed {P : Volume → InternTable (ℕ × ℕ) Inode → Prop} {Q : Iso9660 → Prop}
    (hP : ∀ vol t inode, Listed vol inode → P vol t → P vol (t.intern inode.key inode).2)
    (hQ : ∀ iso, Q iso → P iso.vol iso.table)
    (hput : ∀ t iso, P iso.vol t → Q iso → Q { iso with table := t }) :
    (frontend zisofs codecs).Keeps Q := by
  have hinode : ∀ node, Preserves Q (Iso9660.inode node) := fun _ => preserves_reading Q _
  have hzoom : ∀ {α : Type} (x : Method (InternTable (ℕ × ℕ) Inode) α) (iso : Iso9660),
      Preserves (P iso.vol) x → Q iso → Q (exec (onTable x) iso).2 := by
    intro α x iso hx hiso
    exact hput _ iso (hx _ (hQ iso hiso)) hiso
  refine ⟨?_, ?_, ?_, ?_, ?_⟩
  · intro dir name
    apply Triple.preserves
    refine Triple.bind (dirEntries_triple Q dir) ?_
    intro entries
    cases hfind : entries.find? fun entry => entry.1 = name with
    | none => exact Triple.pure fun _ h => h.1
    | some entry =>
      intro iso hiso
      have hlisted := hiso.2 entry (List.mem_of_find?_eq_some hfind)
      have hone : Preserves (P iso.vol) (InternTable.internOne entry.2.key entry.2) :=
        InternTable.internOne_preserves fun t => hP iso.vol t _ hlisted
      exact hzoom _ iso hone hiso.1
  · intro dir
    apply Triple.preserves
    refine Triple.bind (dirEntries_triple Q dir) ?_
    intro entries iso hiso
    have hall : Preserves (P iso.vol)
        (InternTable.internAll Inode.key (pure : Inode → Outcome Inode) Inode.kind entries) := by
      refine InternTable.internAll_preserves ?_
      intro t inode child hmem hchild ht
      obtain ⟨entry, hentry, rfl⟩ := List.mem_map.mp hmem
      obtain rfl := Except.ok.inj hchild
      exact hP iso.vol t _ (hiso.2 entry hentry) ht
    have hnext := hzoom _ iso hall hiso.1
    rcases hrun : exec (onTable (InternTable.internAll Inode.key (pure : Inode → Outcome Inode)
      Inode.kind entries)) iso with ⟨e | es, t⟩
    · rwa [hrun] at hnext
    · rwa [hrun] at hnext
  · intro node
    exact Preserves.bind (hinode node) fun _ => Preserves.pure _ _
  · intro node off buf
    refine Preserves.bind (hinode node) ?_
    intro inode
    refine Preserves.ite (Preserves.throw _ _) ?_
    refine Preserves.bind (Preserves.get _) ?_
    intro iso
    cases inode.zisofs with
    | some zi => exact Preserves.ite (Preserves.lift _ _) (Preserves.throw _ _)
    | none => exact Preserves.lift _ _
  · intro node
    exact Preserves.bind (hinode node) fun _ => Preserves.pure _ _

/-- What interning bounded nodes keeps, every operation keeps. -/
theorem frontend_keeps {P : InternTable (ℕ × ℕ) Inode → Prop} {Q : Iso9660 → Prop}
    (hP : ∀ t key inode, inode.Bounded → P t → P (t.intern key inode).2)
    (hQ : ∀ iso, Q iso → P iso.table) (hput : ∀ t iso, P t → Q iso → Q { iso with table := t }) :
    (frontend zisofs codecs).Keeps Q :=
  frontend_keeps_listed (P := fun _ => P)
    (fun _ t _ hlisted => hP t _ _ hlisted.bounded) hQ hput

/-- The volume is `vol`, and the nodes are bounded. -/
structure Opened (vol : Volume) (iso : Iso9660) : Prop where
  vol_eq : iso.vol = vol
  nodes : iso.table.All Inode.Bounded

theorem frontend_keeps_opened (vol : Volume) : (frontend zisofs codecs).Keeps (Opened vol) := by
  refine frontend_keeps (P := InternTable.All Inode.Bounded) ?_ (fun iso hiso => hiso.nodes) ?_
  · intro t key inode hinode ht
    exact ht.intern key hinode
  · intro t iso ht hiso
    exact ⟨hiso.vol_eq, ht⟩

theorem mount_opened {src : Source} {iso : Iso9660} (h : mount src = .ok iso) :
    Opened iso.vol iso ∧ iso.vol.src = src ∧ iso.vol.Bounded := by
  obtain ⟨⟨vol, root⟩, hopen, h⟩ := bind_eq_ok.mp h
  obtain rfl := Except.ok.inj h
  obtain ⟨hsrc, hvol, hroot⟩ := openVolume_bounded hopen
  exact ⟨⟨rfl, (InternTable.all_empty _).intern _ hroot⟩, hsrc, hvol⟩

end Runs

end Iso9660

end Lamfold
