import Lamfold.IsoFiles

/-!
The start of an ISO 9660 volume, written and read back. From sector 16 on there are volume
descriptors, of which the last primary one, the last Joliet one and the last boot record of
El Torito count. The first record of the root says whether the volume has Rock Ridge, which is
preferred to Joliet, and that to the plain names.
-/
namespace Lamfold.Iso9660

open Effects Bytes RockRidge

/-- A descriptor that does not end the sequence. -/
inductive Descriptor
  | primary (blockSize : UInt16) (hpos : 0 < blockSize.toNat) (root : Record)
  | joliet (root : Record)
  | elTorito (catalogLba : UInt32)
  | other

/-- The node of a root record. -/
def Record.rootInode (root : Record) : Inode :=
  ⟨rootKey, root.lba, root.size, [root.extent], .directory, none, none⟩

/-- What is known after the descriptor. -/
def Descriptor.note (found : Vds) : Descriptor → Vds
  | .primary blockSize hpos root =>
    { found with primary := some ⟨blockSize.toNat, hpos, root.rootInode⟩ }
  | .joliet root => { found with jolietRoot := some root.rootInode }
  | .elTorito catalogLba => { found with elToritoCatalogLba := some catalogLba.toNat }
  | .other => found

/-- A sector that holds the descriptor. -/
inductive Holds (vd : List UInt8) : Descriptor → Prop
  | primary {blockSize : UInt16} {hpos : 0 < blockSize.toNat} {root : Record}
      (htype : vd[0]? = some vdTypePrimary)
      (hsize : slice vd 128 2 = some (leBytes 2 blockSize.toNat))
      (hroot : slice vd 156 34 = some root.encode) : Holds vd (.primary blockSize hpos root)
  | joliet {escape : List UInt8} {root : Record} (htype : vd[0]? = some vdTypeSupplementary)
      (hescape : slice vd jolietEscapeOffset 3 = some escape) (hjoliet : escape ∈ jolietEscapes)
      (hroot : slice vd 156 34 = some root.encode) : Holds vd (.joliet root)
  | elTorito {catalogLba : UInt32} (htype : vd[0]? = some vdTypeBootRecord)
      (hid : slice vd 7 elToritoId.length = some elToritoId)
      (hlba : slice vd etCatalogPtrOffset 4 = some (leBytes 4 catalogLba.toNat)) :
      Holds vd (.elTorito catalogLba)
  | boot (htype : vd[0]? = some vdTypeBootRecord)
      (hother : slice vd 7 elToritoId.length ≠ some elToritoId) : Holds vd .other
  | supplementary {escape : List UInt8} (htype : vd[0]? = some vdTypeSupplementary)
      (hescape : slice vd jolietEscapeOffset 3 = some escape) (hother : escape ∉ jolietEscapes) :
      Holds vd .other
  | other {type : UInt8} (htype : vd[0]? = some type) (hother :
      type ∉ [vdTypePrimary, vdTypeBootRecord, vdTypeSupplementary, vdTypeTerminator]) :
      Holds vd .other

theorem rootRecord_encode {vd : List UInt8} {root : Record}
    (h : slice vd 156 34 = some root.encode) : rootRecord vd = .ok root.rootInode := by
  unfold rootRecord
  rw [h, okOr, ok_bind, root.encode_lba, ok_bind, root.encode_size]
  rfl

/-- A descriptor that does not end the sequence is taken in. -/
theorem Holds.readVd {vd : List UInt8} {d : Descriptor} (h : Holds vd d) (found : Vds) :
    ∃ type, vd[0]? = some type ∧ type ≠ vdTypeTerminator ∧
      readVd vd type found = .ok (d.note found) := by
  cases h with
  | @primary blockSize hpos root htype hsize hroot =>
    have hblock : leU16 vd 128 = .ok blockSize.toNat := by
      unfold leU16 leAt
      rw [hsize, okOr, ok_bind, leNat_leBytes blockSize.toNat_lt]
      rfl
    have hprimary : primaryVd vd = .ok ⟨blockSize.toNat, hpos, root.rootInode⟩ := by
      unfold primaryVd
      rw [hblock, ok_bind, dif_neg (Nat.ne_of_gt hpos), rootRecord_encode hroot]
      rfl
    refine ⟨_, htype, by decide, ?_⟩
    rw [Iso9660.readVd, if_pos rfl, hprimary]
    rfl
  | @joliet escape root htype hescape hjoliet hroot =>
    refine ⟨_, htype, by decide, ?_⟩
    rw [Iso9660.readVd, if_neg (by decide), if_neg (by decide), if_pos rfl, hescape, unwrap, ok_bind,
      if_pos hjoliet, rootRecord_encode hroot]
    rfl
  | @elTorito catalogLba htype hid hlba =>
    have hcatalog : leU32 vd etCatalogPtrOffset = .ok catalogLba.toNat := by
      unfold leU32 leAt
      rw [hlba, okOr, ok_bind, leNat_leBytes catalogLba.toNat_lt]
      rfl
    refine ⟨_, htype, by decide, ?_⟩
    rw [Iso9660.readVd, if_neg (by decide), if_pos rfl, if_pos hid, hcatalog]
    rfl
  | boot htype hother =>
    refine ⟨_, htype, by decide, ?_⟩
    rw [Iso9660.readVd, if_neg (by decide), if_pos rfl, if_neg hother]
    rfl
  | supplementary htype hescape hother =>
    refine ⟨_, htype, by decide, ?_⟩
    rw [Iso9660.readVd, if_neg (by decide), if_neg (by decide), if_pos rfl, hescape, unwrap, ok_bind,
      if_neg hother]
    rfl
  | other htype hother =>
    simp only [List.mem_cons, List.not_mem_nil, or_false, not_or] at hother
    obtain ⟨hprimary, hboot, hsupplementary, hterminator⟩ := hother
    refine ⟨_, htype, hterminator, ?_⟩
    rw [Iso9660.readVd, if_neg hprimary, if_neg hboot, if_neg hsupplementary]
    rfl

/-- Where descriptor number `i` starts. -/
def vdOffset (i : ℕ) : ℕ := vdRegionOffset + i * vdSize

/-- The descriptors from number `i` on, of which at most `count` are read: up to a terminator,
or as far as the source goes. -/
inductive Sequence (src : Source) : ℕ → ℕ → List Descriptor → Prop
  | full {i : ℕ} : Sequence src i 0 []
  | cut {i count : ℕ} (hcut : src.len < vdOffset i + vdSize) : Sequence src i (count + 1) []
  | terminated {i count : ℕ} {vd : List UInt8}
      (hvd : slice src.content (vdOffset i) vdSize = some vd)
      (hid : slice vd 1 5 = some standardId) (htype : vd[0]? = some vdTypeTerminator) :
      Sequence src i (count + 1) []
  | cons {i count : ℕ} {vd : List UInt8} {d : Descriptor} {ds : List Descriptor}
      (hvd : slice src.content (vdOffset i) vdSize = some vd)
      (hid : slice vd 1 5 = some standardId) (hd : Holds vd d)
      (hrest : Sequence src (i + 1) count ds) : Sequence src i (count + 1) (d :: ds)

theorem u64_vdOffset {i : ℕ} (hi : i < maxVdScan) :
    u64 (vdRegionOffset + i * vdSize) = .ok (vdOffset i) ∧
      u64 (vdOffset i + vdSize) = .ok (vdOffset i + vdSize) := by
  have hend : vdOffset i + vdSize < 2 ^ 64 := by
    unfold maxVdScan at hi
    unfold vdOffset vdRegionOffset vdSize
    omega
  exact ⟨fits_eq_ok.mpr ⟨Nat.lt_of_le_of_lt (Nat.le_add_right _ _) hend, rfl⟩,
    fits_eq_ok.mpr ⟨hend, rfl⟩⟩

theorem scanVds_sequence {src : Source} {i count : ℕ} {ds : List Descriptor} (found : Vds)
    (hi : i + count ≤ maxVdScan) (h : Sequence src i count ds) :
    scanVds src count i found = .ok (ds.foldl Descriptor.note found) := by
  induction h generalizing found with
  | full => rfl
  | @cut i count hcut =>
    obtain ⟨hoff, hstop⟩ := u64_vdOffset (by omega : i < maxVdScan)
    rw [scanVds, hoff, lift_ok_bind, hstop, lift_ok_bind, if_pos hcut]
    rfl
  | @terminated i count vd hvd hid htype =>
    obtain ⟨hoff, hstop⟩ := u64_vdOffset (by omega : i < maxVdScan)
    have hin : ¬vdOffset i + vdSize > src.len := Nat.not_lt.mpr (slice_eq_some.mp hvd).1
    rw [scanVds, hoff, lift_ok_bind, hstop, lift_ok_bind, if_neg hin,
      Source.readAt_eq_ok.mpr hvd, ok_bind, hid, unwrap, lift_ok_bind, if_neg (not_not.mpr rfl), htype,
      unwrap, lift_ok_bind, if_pos rfl]
    rfl
  | @cons i count vd d ds hvd hid hd _ ih =>
    obtain ⟨hoff, hstop⟩ := u64_vdOffset (by omega : i < maxVdScan)
    obtain ⟨type, htype, hmore, hread⟩ := hd.readVd found
    have hin : ¬vdOffset i + vdSize > src.len := Nat.not_lt.mpr (slice_eq_some.mp hvd).1
    rw [scanVds, hoff, lift_ok_bind, hstop, lift_ok_bind, if_neg hin,
      Source.readAt_eq_ok.mpr hvd, ok_bind, hid, unwrap, lift_ok_bind, if_neg (not_not.mpr rfl), htype,
      unwrap, lift_ok_bind, if_neg hmore, hread, lift_ok_bind, ih _ (by omega)]
    rfl

/-- The System Use area of a record, behind what makes the length of the identifier odd. -/
def Record.systemUse (r : Record) : List UInt8 := r.su.drop (if r.fi.length % 2 = 0 then 1 else 0)

theorem Record.drop_suStart (r : Record) : r.encode.drop (suStart r.fi.length) = r.systemUse := by
  have hlen : (r.head ++ r.middle ++ r.fi).length = 33 + r.fi.length := by
    simp only [List.length_append, r.head_length, r.middle_length]
  unfold Record.encode suStart Record.systemUse Dr.fileId
  rw [← hlen, List.drop_length_add_append]

theorem sigSp_length : sigSp.length = 2 := rfl

theorem spData_length (skip : UInt8) : [0xBE, 0xEF, skip].length ≤ 251 := by simp

theorem sigSp_other : sigSp ∉ [sigNm, sigSl, sigCe, sigSt] := by decide

/-- The entry that says that a volume has System Use areas, of which `skip` bytes are skipped. -/
def spEntry (skip : UInt8) : Entry :=
  .other sigSp [0xBE, 0xEF, skip] sigSp_length (spData_length skip) sigSp_other

/-- An entry in an area is found by its length. -/
structure EntryAt (su : List UInt8) (p : ℕ) (e : Entry) (len : UInt8) : Prop where
  header : p + 4 ≤ su.length
  len_at : su[p + 2]? = some len
  len_eq : len.toNat = 4 + e.data.length
  within : p + len.toNat ≤ su.length
  sig : slice su p 2 = some e.sig
  data : slice su (p + 4) e.data.length = some e.data

theorem entryAt_encode (e : Entry) (pre post : List UInt8) :
    EntryAt (pre ++ e.encode ++ post) pre.length e (.ofNat (4 + e.data.length)) := by
  have hdata := e.data_length
  have hsig := e.sig_length
  have hlen : (UInt8.ofNat (4 + e.data.length)).toNat = 4 + e.data.length :=
    UInt8.toNat_ofNat_of_lt' (by omega : 4 + e.data.length < 2 ^ 8)
  have htotal : (pre ++ e.encode ++ post).length = pre.length + (4 + e.data.length) + post.length := by
    rw [List.length_append, List.length_append, e.encode_length]
  refine ⟨by omega, ?_, hlen, by omega, ?_, ?_⟩
  · refine @getElem?_of_append _ _ (pre ++ e.sig) (0x01 :: (e.data ++ post)) _ _ ?_ ?_
    · simp [Entry.encode]
    · rw [List.length_append, hsig]
  · refine @slice_of_append _ _ pre e.sig ([.ofNat (4 + e.data.length), 0x01] ++ e.data ++ post) _ _
      ?_ rfl hsig.symm
    simp only [Entry.encode, List.append_assoc]
  · refine @slice_of_append _ _ (pre ++ e.sig ++ [.ofNat (4 + e.data.length), 0x01]) e.data post _ _
      ?_ ?_ rfl
    · simp only [Entry.encode, List.append_assoc]
    · simp only [List.length_append, hsig, List.length_cons, List.length_nil]

theorem detectSpFrom_entry {su : List UInt8} {p : ℕ} {e : Entry} {len : UInt8}
    (h : EntryAt su p e len) (hsp : e.sig ≠ sigSp) :
    detectSpFrom su p = detectSpFrom su (p + len.toNat) := by
  have hwhole : ¬(len.toNat < 4 ∨ p + len.toNat > su.length) := by
    have hlen := h.len_eq
    have hwithin := h.within
    omega
  rw [detectSpFrom, if_pos h.header, h.len_at, unwrap, ok_bind, dif_neg hwhole, h.sig, unwrap,
    ok_bind, if_neg fun hand => hsp hand.1]

theorem detectSpFrom_sp {su : List UInt8} {p : ℕ} {skip len : UInt8}
    (h : EntryAt su p (spEntry skip) len) : detectSpFrom su p = .ok (some skip.toNat) := by
  have hlen : len.toNat = 7 := h.len_eq
  have hwhole : ¬(len.toNat < 4 ∨ p + len.toNat > su.length) := by
    have hwithin := h.within
    omega
  have hdata : slice su (p + 4) ([0xBE, 0xEF] ++ [skip]).length = some ([0xBE, 0xEF] ++ [skip]) :=
    h.data
  have hcheck : slice su (p + 4) 2 = some [0xBE, 0xEF] := (slice_parts hdata).1
  have hskip : su[p + 6]? = some skip := (slice_getElem? h.data (by decide : 2 < 3)).symm
  rw [detectSpFrom, if_pos h.header, h.len_at, unwrap, ok_bind, dif_neg hwhole, h.sig, unwrap,
    ok_bind, if_pos ⟨rfl, hlen.ge⟩, hcheck, unwrap, ok_bind, if_pos rfl, hskip]
  rfl

/-- Bytes behind the entries, too few for one more, or zeros. -/
inductive Blank : List UInt8 → Prop
  | short {rest : List UInt8} (h : rest.length < 4) : Blank rest
  | zeros (n : ℕ) : Blank (List.replicate n 0)

theorem detectSpFrom_blank {rest : List UInt8} (h : Blank rest) (pre : List UInt8) :
    detectSpFrom (pre ++ rest) pre.length = .ok none := by
  rw [detectSpFrom]
  cases h with
  | short hlen =>
    apply if_neg
    rw [List.length_append]
    omega
  | zeros n =>
    by_cases hin : pre.length + 4 ≤ (pre ++ List.replicate n 0).length
    · have hlen : (pre ++ List.replicate n (0 : UInt8))[pre.length + 2]? = some 0 := by
        rw [List.length_append, List.length_replicate] at hin
        rw [List.getElem?_append_right (by omega)]
        exact List.getElem?_replicate_of_lt (by omega)
      have hzero : (0 : UInt8).toNat < 4 ∨
          pre.length + (0 : UInt8).toNat > (pre ++ List.replicate n (0 : UInt8)).length :=
        .inl (by decide)
      rw [if_pos hin, hlen, unwrap, ok_bind, dif_pos hzero]
      rfl
    · exact if_neg hin

/-- Entries of other kinds are passed over. -/
theorem detectSpFrom_entries {entries : List Entry} (h : ∀ e ∈ entries, e.sig ≠ sigSp)
    (pre rest : List UInt8) :
    detectSpFrom (pre ++ (entries.flatMap Entry.encode ++ rest)) pre.length =
      detectSpFrom (pre ++ entries.flatMap Entry.encode ++ rest)
        (pre ++ entries.flatMap Entry.encode).length := by
  induction entries generalizing pre with
  | nil => rw [List.flatMap_nil, List.nil_append, List.append_nil]
  | cons e entries ih =>
    have hsplit : pre ++ ((e :: entries).flatMap Entry.encode ++ rest) =
        pre ++ e.encode ++ (entries.flatMap Entry.encode ++ rest) := by
      simp only [List.flatMap_cons, List.append_assoc]
    have hflat : pre ++ (e :: entries).flatMap Entry.encode =
        pre ++ e.encode ++ entries.flatMap Entry.encode := by
      rw [List.flatMap_cons, List.append_assoc]
    have hat := entryAt_encode e pre (entries.flatMap Entry.encode ++ rest)
    have hnext : pre.length + (UInt8.ofNat (4 + e.data.length)).toNat = (pre ++ e.encode).length := by
      rw [hat.len_eq, List.length_append, e.encode_length]
    have hrest := ih (fun e he => h e (List.mem_cons_of_mem _ he)) (pre ++ e.encode)
    rw [hsplit, detectSpFrom_entry hat (h e List.mem_cons_self), hnext, hrest, hflat]

/-- Whether the first record of the root says that there are System Use areas, and how much of
each is skipped. -/
inductive Susp : List UInt8 → Option ℕ → Prop
  | empty : Susp [] none
  | present {r : Record} {entries : List Entry} {skip : UInt8} {tail rest : List UInt8}
      (harea : r.systemUse = entries.flatMap Entry.encode ++ ((spEntry skip).encode ++ tail))
      (hfirst : ∀ e ∈ entries, e.sig ≠ sigSp) : Susp (r.encode ++ rest) (some skip.toNat)
  | absent {r : Record} {entries : List Entry} {tail rest : List UInt8}
      (harea : r.systemUse = entries.flatMap Entry.encode ++ tail)
      (hnone : ∀ e ∈ entries, e.sig ≠ sigSp) (htail : Blank tail) : Susp (r.encode ++ rest) none

theorem detectSp_present {su tail : List UInt8} {entries : List Entry} {skip : UInt8}
    (h : su = entries.flatMap Entry.encode ++ ((spEntry skip).encode ++ tail))
    (hfirst : ∀ e ∈ entries, e.sig ≠ sigSp) : detectSp su = .ok (some skip.toNat) := by
  have hskip := detectSpFrom_entries hfirst [] ((spEntry skip).encode ++ tail)
  rw [List.nil_append, List.nil_append, ← List.append_assoc, List.length_nil] at hskip
  rw [h, detectSp, ← List.append_assoc, hskip]
  exact detectSpFrom_sp (entryAt_encode ..)

theorem detectSp_absent {su tail : List UInt8} {entries : List Entry}
    (h : su = entries.flatMap Entry.encode ++ tail) (hnone : ∀ e ∈ entries, e.sig ≠ sigSp)
    (htail : Blank tail) : detectSp su = .ok none := by
  have hskip := detectSpFrom_entries hnone [] tail
  rw [List.nil_append, List.nil_append, List.length_nil] at hskip
  rw [h, detectSp, hskip]
  exact detectSpFrom_blank htail _

theorem detectSusp_record {src : Source} {blockSize : ℕ} {root : Inode} {r : Record}
    {rest : List UInt8} (hread : readDirExtent src blockSize root = .ok (r.encode ++ rest)) :
    detectSusp src blockSize root = detectSp r.systemUse := by
  obtain ⟨bytes, hbytes⟩ : ∃ bytes, r.encode ++ rest = .ofNat r.len :: bytes := ⟨_, rfl⟩
  have hrecord : slice (r.encode ++ rest) 0 r.len = some r.encode :=
    @slice_of_append _ _ [] r.encode rest _ _ rfl rfl r.encode_length.symm
  unfold detectSusp
  rw [hread, ok_bind, hbytes]
  dsimp only
  rw [← hbytes, r.toNat_len, hrecord, okOr, lift_ok_bind, r.encode_lenFi, okOr, lift_ok_bind,
    r.toNat_fi_len, r.drop_suStart, lift_self]

theorem detectSusp_susp {src : Source} {blockSize : ℕ} {root : Inode} {buf : List UInt8}
    {susp : Option ℕ} (hread : readDirExtent src blockSize root = .ok buf) (h : Susp buf susp) :
    detectSusp src blockSize root = .ok susp := by
  cases h with
  | empty =>
    unfold detectSusp
    rw [hread]
    rfl
  | present harea hfirst =>
    rw [detectSusp_record hread]
    exact detectSp_present harea hfirst
  | absent harea hnone htail =>
    rw [detectSusp_record hread]
    exact detectSp_absent harea hnone htail

/-- What the descriptors and the first record of the root say of a volume. -/
structure Layout where
  descriptors : List Descriptor
  primary : PrimaryVd
  susp : Option ℕ

namespace Layout

variable (layout : Layout)

def found : Vds := layout.descriptors.foldl Descriptor.note ⟨none, none, none⟩

def volume (src : Source) : Volume where
  src := src
  blockSize := layout.primary.blockSize
  blockSize_pos := layout.primary.blockSize_pos
  rockRidge := layout.susp.isSome
  suspSkip := layout.susp.getD 0
  joliet := layout.susp.isNone && layout.found.jolietRoot.isSome
  elToritoCatalogLba := layout.found.elToritoCatalogLba

/-- The root of the names that are used. -/
def root : Inode :=
  if layout.susp.isSome then layout.primary.root
  else layout.found.jolietRoot.getD layout.primary.root

/-- The source starts as the layout says. -/
structure Starts (src : Source) : Prop where
  sequence : Sequence src 0 maxVdScan layout.descriptors
  primary : layout.found.primary = some layout.primary
  cap : layout.primary.root.size ≤ maxBootFileBytes
  susp : ∃ buf, Susp buf layout.susp ∧
    slice src.content (layout.primary.root.lba * layout.primary.blockSize) layout.primary.root.size =
      some buf

theorem Starts.openVolume {layout : Layout} {src : Source} (h : layout.Starts src) :
    Iso9660.openVolume src = .ok (layout.volume src, layout.root) := by
  obtain ⟨buf, hsusp, hbuf⟩ := h.susp
  have hscan : scanVds src maxVdScan 0 ⟨none, none, none⟩ = .ok layout.found :=
    scanVds_sequence _ (Nat.le_of_eq (Nat.zero_add _)) h.sequence
  have hread : readDirExtent src layout.primary.blockSize layout.primary.root = .ok buf :=
    @readDirExtent_of_slice (layout.volume src) _ _ h.cap hbuf
  unfold Iso9660.openVolume
  rw [hscan, ok_bind, h.primary, okOr, lift_ok_bind, detectSusp_susp hread hsusp, ok_bind]
  unfold volume root
  cases layout.susp with
  | some skip => rfl
  | none =>
    cases layout.found.jolietRoot with
    | some root => rfl
    | none => rfl

end Layout

end Lamfold.Iso9660
