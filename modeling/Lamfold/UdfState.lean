import Lamfold.Udf

/-!
What holds of a mounted UDF volume in every state. The nodes are parsed from File
Entries, so their addresses and lengths have the widths of their fields.
-/
namespace Lamfold.Udf

open Effects Bytes

/-- Extents with addresses and lengths of 32 bits, and together no more bytes than an
offset can count; inline data as long as declared. -/
def FileData.Bounded (size : ℕ) : FileData → Prop
  | .inline bytes => bytes.length = size
  | .extents ex => (∀ e ∈ ex, (∀ lba, e.lba = some lba → lba < 2 ^ 32) ∧ e.len < 2 ^ 30) ∧
      totalLen Extent.len ex < 2 ^ 62

structure UdfInode.Bounded (inode : UdfInode) : Prop where
  size_lt : inode.size < 2 ^ 64
  data : inode.data.Bounded inode.size

theorem parseExtent_bounds {partitionStart : ℕ} {c : List UInt8} {e : Extent}
    (h : parseExtent partitionStart c = .ok (some e)) :
    (∀ lba, e.lba = some lba → lba < 2 ^ 32) ∧ e.len < 2 ^ 30 := by
  unfold parseExtent at h
  dsimp only at h
  split at h
  · cases h
  · split at h
    · exact absurd h (fail_ne_ok _ _)
    · obtain ⟨lba, hlba, h⟩ := bind_eq_ok.mp h
      obtain ⟨hlt, rfl⟩ := fits_eq_ok.mp hlba
      obtain rfl := Option.some.inj (Except.ok.inj h)
      have hlen : leNat (c.take 4) &&& 0x3FFFFFFF ≤ 0x3FFFFFFF := Nat.and_le_right
      refine ⟨?_, by dsimp only; omega⟩
      intro found hfound
      dsimp only at hfound
      split at hfound
      · exact Option.some.inj hfound ▸ hlt
      · cases hfound

theorem totalLen_le {es : List Extent} {n : ℕ} (h : ∀ e ∈ es, e.len ≤ n) :
    totalLen Extent.len es ≤ es.length * n := by
  induction es with
  | nil => simp
  | cons e es ih =>
    have hfirst := h e List.mem_cons_self
    have hrest := ih fun e' he' => h e' (List.mem_cons_of_mem _ he')
    rw [totalLen_cons, List.length_cons, Nat.succ_mul]
    omega

theorem parseExtents_bounded {partitionStart adOff lAd stride size : ℕ} {buf : List UInt8}
    {data : FileData} (hstride : 8 ≤ stride) (hlAd : lAd < 2 ^ 32)
    (h : parseExtents partitionStart buf adOff lAd stride = .ok data) : data.Bounded size := by
  obtain ⟨ads, hads, h⟩ := bind_eq_ok.mp h
  obtain ⟨ex, hex, h⟩ := bind_eq_ok.mp h
  obtain rfl := Except.ok.inj h
  have hbounds : ∀ e ∈ ex.filterMap id,
      (∀ lba, e.lba = some lba → lba < 2 ^ 32) ∧ e.len < 2 ^ 30 := by
    intro e he
    obtain ⟨found, hfound, hsome⟩ := List.mem_filterMap.mp he
    obtain rfl : found = some e := hsome
    obtain ⟨c, -, hc⟩ := mem_of_mapM hex hfound
    exact parseExtent_bounds hc
  refine ⟨hbounds, ?_⟩
  have hlen := slice_length (okOr_eq_ok.mp hads)
  have hcount := chunksExact_count stride ads
  rw [hlen, ← mapM_length hex] at hcount
  have hfilter := List.length_filterMap_le id ex
  have htotal := totalLen_le fun e he => Nat.le_of_lt (hbounds e he).2
  have hle : ex.length * 8 ≤ lAd := Nat.le_trans (Nat.mul_le_mul_left _ hstride) hcount
  omega

theorem inlineData_bounded {buf : List UInt8} {adOff infoLen : ℕ} {data : FileData}
    (h : inlineData buf adOff infoLen = .ok data) : data.Bounded infoLen := by
  obtain ⟨n, hn, h⟩ := bind_eq_ok.mp h
  obtain ⟨-, rfl⟩ := checkedFullReadLen_eq_ok.mp hn
  obtain ⟨stop, hstop, h⟩ := bind_eq_ok.mp h
  obtain ⟨bytes, hbytes, h⟩ := bind_eq_ok.mp h
  obtain rfl := Except.ok.inj h
  have hsum : adOff + infoLen = stop := by
    have h := okOr_eq_ok.mp hstop
    unfold checkedU64 at h
    split at h
    · exact Option.some.inj h
    · cases h
  obtain ⟨hle, hlen, rfl⟩ := sliceRange_eq_some.mp (okOr_eq_ok.mp hbytes)
  show ((buf.drop adOff).take (stop - adOff)).length = infoLen
  rw [List.length_take, List.length_drop]
  omega

theorem parseFe_bounded {partitionStart : ℕ} {buf : List UInt8} {inode : UdfInode}
    (h : parseFe partitionStart buf = .ok inode) : inode.Bounded := by
  obtain ⟨tag, -, h⟩ := bind_eq_ok.mp h
  obtain ⟨⟨lEaAt, lAdAt, eaStart⟩, -, h⟩ := bind_eq_ok.mp h
  obtain ⟨fileType, -, h⟩ := bind_eq_ok.mp h
  obtain ⟨icbFlags, -, h⟩ := bind_eq_ok.mp h
  obtain ⟨infoLen, hinfo, h⟩ := bind_eq_ok.mp h
  obtain ⟨lEa, -, h⟩ := bind_eq_ok.mp h
  obtain ⟨lAd, hlAd, h⟩ := bind_eq_ok.mp h
  obtain ⟨adOff, -, h⟩ := bind_eq_ok.mp h
  obtain ⟨data, hdata, h⟩ := bind_eq_ok.mp h
  obtain rfl := Except.ok.inj h
  have hlt := leAt_lt hlAd
  refine ⟨leAt_lt hinfo, ?_⟩
  unfold fileData at hdata
  split at hdata
  · exact inlineData_bounded hdata
  · split at hdata
    · exact parseExtents_bounded (by decide) hlt hdata
    · split at hdata
      · exact parseExtents_bounded (by decide) hlt hdata
      · exact absurd hdata (fail_ne_ok _ _)

theorem readFe_bounded {vol : Volume} {lba : ℕ} {inode : UdfInode}
    (h : readFe vol lba = .ok inode) : inode.Bounded := by
  obtain ⟨buf, -, h⟩ := bind_eq_ok.mp h
  exact parseFe_bounded h

theorem exec_inode (node : NodeId) (u : Udf) :
    exec (inode node) u = (u.table.inode node, u) := rfl

/-- What interning parsed File Entries keeps, every operation keeps. -/
theorem frontend_keeps {P : Udf → Prop}
    (h : ∀ u fids, P u →
      Preserves P (onTable (InternTable.internAll id (readFe u.vol) UdfInode.kind fids))) :
    frontend.Keeps P := by
  have hinode : ∀ node, Preserves P (inode node) := fun _ => preserves_reading P _
  have hdir : ∀ dir, Preserves P (readDir dir) := by
    intro dir
    refine Preserves.bind (hinode dir) ?_
    intro inode
    refine Preserves.ite (Preserves.throw _ _) ?_
    refine Preserves.get_bind ?_
    intro u hu
    refine Preserves.bind (Preserves.lift _ _) ?_
    intro data
    refine Preserves.bind (Preserves.lift _ _) ?_
    intro fids
    exact h u fids hu
  refine ⟨?_, hdir, ?_, ?_, fun _ => Preserves.pure _ _⟩
  · intro dir name
    exact Preserves.bind (hdir dir) fun _ => Preserves.pure _ _
  · intro node
    exact Preserves.bind (hinode node) fun _ => Preserves.pure _ _
  · intro node off buf
    refine Preserves.bind (hinode node) ?_
    intro inode
    refine Preserves.ite (Preserves.throw _ _) ?_
    refine Preserves.ite (Preserves.pure _ _) ?_
    refine Preserves.bind (Preserves.get _) ?_
    intro u
    exact Preserves.bind (Preserves.lift _ _) fun _ => Preserves.pure _ _

/-- The volume is `vol`, with fields of 32 bits, and the nodes are bounded. -/
structure Opened (vol : Volume) (u : Udf) : Prop where
  vol_eq : u.vol = vol
  blockSize_lt : vol.blockSize < 2 ^ 32
  nodes : u.table.All UdfInode.Bounded

theorem frontend_keeps_opened (vol : Volume) : frontend.Keeps (Opened vol) := by
  refine frontend_keeps ?_
  intro other fids _
  have hall : Preserves (InternTable.All UdfInode.Bounded)
      (InternTable.internAll id (readFe other.vol) UdfInode.kind fids) :=
    InternTable.internAll_all fun _ _ _ hparse => readFe_bounded hparse
  refine Preserves.zoom hall (fun u hu => hu.nodes) ?_
  intro t u ht hu
  exact ⟨hu.vol_eq, hu.blockSize_lt, ht⟩

/-- The volume is `vol`, and the node of each block is what its File Entry says. -/
structure Named (vol : Volume) (u : Udf) : Prop where
  vol_eq : u.vol = vol
  nodes : u.table.Keyed (readFe vol)

theorem frontend_keeps_named (vol : Volume) : frontend.Keeps (Named vol) := by
  refine frontend_keeps ?_
  intro other fids hother
  rw [hother.vol_eq]
  refine Preserves.zoom (P := fun t => t.Keyed (readFe vol)) ?_ (fun u hu => hu.nodes) ?_
  · exact InternTable.internAll_preserves fun t lba child _ hparse ht => ht.intern hparse
  · intro t u ht hu
    exact ⟨hu.vol_eq, ht⟩

theorem mount_named {src : Source} {u : Udf} (h : mount src = .ok u) : Named u.vol u := by
  obtain ⟨⟨vol, fsdLb⟩, -, h⟩ := bind_eq_ok.mp h
  obtain ⟨rootFeLba, -, h⟩ := bind_eq_ok.mp h
  obtain ⟨root, hroot, h⟩ := bind_eq_ok.mp h
  obtain rfl := Except.ok.inj h
  exact ⟨rfl, (InternTable.keyed_empty _).intern hroot⟩

end Lamfold.Udf
