import Lamfold.UdfState

/-!
Block addresses of a UDF volume. Each is a 32-bit sum of two fields of the image,
which the code forms without a check; every call is answered exactly when the sums
it forms fit.
-/
namespace Lamfold.Udf

open Effects Bytes

/-- A descriptor that says the list goes on elsewhere, which is refused. -/
def Continues (c : List UInt8) : Prop :=
  leNat (c.take 4) &&& 0x3FFFFFFF ≠ 0 ∧ leNat (c.take 4) >>> 30 = 3

/-- The address of a descriptor's extent fits, when one is formed. -/
def ExtentFits (partitionStart : ℕ) (c : List UInt8) : Prop :=
  leNat (c.take 4) &&& 0x3FFFFFFF ≠ 0 → leNat (c.take 4) >>> 30 ≠ 3 →
    partitionStart + leNat ((c.drop 4).take 4) < 2 ^ 32

/-- The addresses of the descriptors before the first refused one fit. -/
def ExtentsFit (partitionStart : ℕ) : List (List UInt8) → Prop
  | [] => True
  | c :: rest => ExtentFits partitionStart c ∧ (¬Continues c → ExtentsFit partitionStart rest)

/-- The block is a File Entry whose allocation descriptors, `stride` bytes each,
are `ads`. -/
structure HasDescriptors (buf : List UInt8) (stride : ℕ) (ads : List UInt8) : Prop where
  icbTag : 28 ≤ buf.length
  infoLen : ∃ infoLen, leU64 buf 56 = .ok infoLen
  area : ∃ tag lEaAt lAdAt eaStart icbFlags lEa lAd,
    leU16 buf 0 = .ok tag ∧ entryLayout tag = .ok (lEaAt, lAdAt, eaStart) ∧
      leU16 buf 34 = .ok icbFlags ∧ leU32 buf lEaAt = .ok lEa ∧ leU32 buf lAdAt = .ok lAd ∧
      (icbFlags &&& 0x7 = 0 ∧ stride = 8 ∨ icbFlags &&& 0x7 = 1 ∧ stride = 16) ∧
      slice buf (eaStart + lEa) lAd = some ads

/-- The addresses in the File Entry of block `lba` fit. -/
def EntryFits (vol : Volume) (lba : ℕ) : Prop :=
  ∀ buf stride ads, readBlock vol.src vol.blockSize lba = .ok buf →
    HasDescriptors buf stride ads → ExtentsFit vol.partitionStart (chunksExact stride ads)

/-- The File Entries of a listing fit, up to the first that does not parse. -/
def ListingFits (vol : Volume) : List (Str × ℕ) → Prop
  | [] => True
  | (_, lba) :: rest =>
    EntryFits vol lba ∧ ((∃ inode, readFe vol lba = .ok inode) → ListingFits vol rest)

/-- A File Identifier Descriptor. -/
structure Fid where
  fc : UInt8
  lFi : UInt8
  icbLb : ℕ
  lIu : ℕ
  fi : List UInt8

namespace Fid

/-- The bytes it takes, padded. -/
def size (fid : Fid) : ℕ := (38 + fid.lIu + fid.lFi.toNat + 3) / 4 * 4

/-- Neither the parent's nor deleted. -/
def Live (fid : Fid) : Prop := fid.fc &&& 0x08 = 0 ∧ fid.fc &&& 0x04 = 0

def Named (fid : Fid) : Prop := ∃ name, decodeUdfName fid.fi = .ok name

/-- The address of its File Entry fits, when one is formed. -/
def Fits (partitionStart : ℕ) (fid : Fid) : Prop :=
  fid.Live → fid.Named → partitionStart + fid.icbLb < 2 ^ 32

end Fid

/-- The descriptor at index `p` of a directory's data. -/
structure FidAt (data : List UInt8) (p : ℕ) (fid : Fid) : Prop where
  in_range : p + 38 ≤ data.length
  tag : leU16 data p = .ok tagFid
  fc : data[p + 18]? = some fid.fc
  lFi : data[p + 19]? = some fid.lFi
  icbLb : leU32 data (p + 24) = .ok fid.icbLb
  lIu : leU16 data (p + 36) = .ok fid.lIu
  fi : slice data (p + 38 + fid.lIu) fid.lFi.toNat = some fid.fi

/-- From index `p` the scan gets to index `q`: the entries between have names that
decode. -/
inductive FidsReach (data : List UInt8) : ℕ → ℕ → Prop
  | refl (p : ℕ) : FidsReach data p p
  | step {p q : ℕ} {fid : Fid} (hfid : FidAt data p fid) (hnamed : fid.Live → fid.Named)
      (hrest : FidsReach data (p + fid.size) q) : FidsReach data p q

/-- The addresses in a directory's data fit. -/
def FidsFit (partitionStart : ℕ) (data : List UInt8) (p : ℕ) : Prop :=
  ∀ q fid, FidsReach data p q → FidAt data q fid → fid.Fits partitionStart

/-- The addresses that listing a directory forms fit. -/
def DirectoryFits (vol : Volume) (inode : UdfInode) : Prop :=
  inode.kind = .directory → ∀ data, readAll vol inode = .ok data →
    FidsFit vol.partitionStart data 0 ∧
      ∀ fids, parseFids data vol.partitionStart = .ok fids → ListingFits vol fids

/-- The descriptor sequence goes on after its descriptor `i`. -/
def GoesOn (src : Source) (mvdsLoc i : ℕ) : Prop :=
  ∃ b tag, readBlock src sector (mvdsLoc + i) = .ok b ∧ leU16 b 0 = .ok tag ∧ tag ≠ tagTerminating

/-- The addresses of the `count` descriptors from number `i` on fit. -/
def SequenceFits (src : Source) (mvdsLoc : ℕ) : ℕ → ℕ → Prop
  | 0, _ => True
  | count + 1, i => mvdsLoc + i < 2 ^ 32 ∧ (GoesOn src mvdsLoc i → SequenceFits src mvdsLoc count (i + 1))

/-- The addresses that opening forms fit. -/
structure MountFits (src : Source) : Prop where
  sequence : ∀ avdp mvdsLen mvdsLoc, readBlock src sector avdpSector = .ok avdp →
    leU16 avdp 0 = .ok tagAvdp → leU32 avdp 16 = .ok mvdsLen → leU32 avdp 20 = .ok mvdsLoc →
      SequenceFits src mvdsLoc (min (mvdsLen / sector) maxVdsSectors) 0
  fileSet : ∀ vol fsdLb, openVolume src = .ok (vol, fsdLb) → vol.partitionStart + fsdLb < 2 ^ 32
  root : ∀ vol fsdLb fsd rootIcbLb, openVolume src = .ok (vol, fsdLb) →
    readBlock src vol.blockSize (vol.partitionStart + fsdLb) = .ok fsd →
      leU16 fsd 0 = .ok tagFileSet → leU32 fsd 404 = .ok rootIcbLb →
        vol.partitionStart + rootIcbLb < 2 ^ 32 ∧ EntryFits vol (vol.partitionStart + rootIcbLb)

theorem answered_readBlock {src : Source} {blockSize lba : ℕ} (hbs : blockSize < 2 ^ 32)
    (hlba : lba < 2 ^ 32) : Answered (readBlock src blockSize lba) := by
  have hmul : lba * blockSize ≤ (2 ^ 32 - 1) * (2 ^ 32 - 1) :=
    Nat.mul_le_mul (by omega) (by omega)
  refine Answered.bind (answered_fits.mpr (by omega)) ?_
  intro off hoff
  obtain ⟨-, rfl⟩ := fits_eq_ok.mp hoff
  refine Answered.bind (answered_fits.mpr (by omega)) ?_
  intro stop _
  exact Answered.ite (fun _ => trivial) fun _ => answered_readAt ..

theorem answered_parseExtent {partitionStart : ℕ} {c : List UInt8} :
    Answered (parseExtent partitionStart c) ↔ ExtentFits partitionStart c := by
  unfold parseExtent ExtentFits
  dsimp only
  rw [answered_ite, answered_ite, answered_bind, answered_fits]
  constructor
  · rintro ⟨-, h⟩ hlen hetype
    exact ((h hlen).2 hetype).1
  · intro h
    refine ⟨fun _ => trivial, fun hlen => ⟨fun _ => trivial, fun hetype => ?_⟩⟩
    exact ⟨h hlen hetype, fun _ _ => trivial⟩

theorem parseExtent_ok_iff {partitionStart : ℕ} {c : List UInt8}
    (hfits : ExtentFits partitionStart c) :
    (∃ e, parseExtent partitionStart c = .ok e) ↔ ¬Continues c := by
  unfold parseExtent Continues
  unfold ExtentFits at hfits
  dsimp only
  split
  · rename_i hlen
    exact ⟨fun _ h => h.1 hlen, fun _ => ⟨none, rfl⟩⟩
  · rename_i hlen
    split
    · rename_i hetype
      constructor
      · rintro ⟨e, he⟩
        exact absurd he (fail_ne_ok _ _)
      · intro h
        exact absurd ⟨hlen, hetype⟩ h
    · rename_i hetype
      refine ⟨fun _ h => hetype h.2, fun _ => ?_⟩
      exact ⟨_, bind_eq_ok.mpr ⟨_, fits_eq_ok.mpr ⟨hfits hlen hetype, rfl⟩, rfl⟩⟩

theorem answered_parseExtents_iff {partitionStart : ℕ} {cs : List (List UInt8)} :
    Answered (cs.mapM (parseExtent partitionStart)) ↔ ExtentsFit partitionStart cs := by
  induction cs with
  | nil => exact iff_true_intro trivial
  | cons c cs ih =>
    rw [answered_mapM_cons, answered_parseExtent, ih, ExtentsFit]
    refine and_congr_right fun hfits => ?_
    rw [parseExtent_ok_iff hfits]

theorem answered_parseExtents {partitionStart adOff lAd stride : ℕ} {buf : List UInt8} :
    Answered (parseExtents partitionStart buf adOff lAd stride) ↔
      ∀ ads, slice buf adOff lAd = some ads →
        ExtentsFit partitionStart (chunksExact stride ads) := by
  unfold parseExtents
  rw [answered_bind]
  simp only [answered_okOr, true_and, okOr_eq_ok]
  refine forall₂_congr fun ads _ => ?_
  rw [← answered_parseExtents_iff, answered_bind]
  exact and_iff_left fun _ _ => trivial

theorem answered_fileData {partitionStart adType adOff lAd infoLen : ℕ} {buf : List UInt8} :
    Answered (fileData partitionStart buf adType adOff lAd infoLen) ↔
      ∀ stride ads, (adType = 0 ∧ stride = 8 ∨ adType = 1 ∧ stride = 16) →
        slice buf adOff lAd = some ads → ExtentsFit partitionStart (chunksExact stride ads) := by
  unfold fileData
  constructor
  · rintro h stride ads (⟨rfl, rfl⟩ | ⟨rfl, rfl⟩) hads
    · exact answered_parseExtents.mp h ads hads
    · exact answered_parseExtents.mp h ads hads
  · intro h
    have hinline : Answered (inlineData buf adOff infoLen) := by
      refine Answered.bind (answered_checkedLen ..) fun n _ => ?_
      refine Answered.bind (answered_okOr ..) fun stop _ => ?_
      exact Answered.bind (answered_okOr ..) fun _ _ => trivial
    refine Answered.ite (fun _ => hinline) fun _ => ?_
    refine Answered.ite (fun hzero => ?_) fun _ => ?_
    · exact answered_parseExtents.mpr fun ads => h 8 ads (.inl ⟨hzero, rfl⟩)
    · refine Answered.ite (fun hone => ?_) fun _ => trivial
      exact answered_parseExtents.mpr fun ads => h 16 ads (.inr ⟨hone, rfl⟩)

theorem entryLayout_le {tag lEaAt lAdAt eaStart : ℕ}
    (h : entryLayout tag = .ok (lEaAt, lAdAt, eaStart)) : eaStart ≤ 216 := by
  unfold entryLayout at h
  split at h
  · cases h
    decide
  · split at h
    · cases h
      decide
    · exact absurd h (fail_ne_ok _ _)

theorem answered_parseFe {partitionStart : ℕ} {buf : List UInt8} :
    Answered (parseFe partitionStart buf) ↔
      ∀ stride ads, HasDescriptors buf stride ads →
        ExtentsFit partitionStart (chunksExact stride ads) := by
  have hoff : ∀ {tag lEaAt lAdAt eaStart lEa at_ : ℕ},
      entryLayout tag = .ok (lEaAt, lAdAt, eaStart) → leU32 buf at_ = .ok lEa →
        checkedU64 (eaStart + lEa) = some (eaStart + lEa) := by
    intro tag lEaAt lAdAt eaStart lEa at_ hlayout hlEa
    have hle := entryLayout_le hlayout
    have hlt := leAt_lt hlEa
    exact if_pos (by omega)
  constructor
  · rintro h stride ads ⟨hicb, ⟨infoLen, hinfo⟩, tag, lEaAt, lAdAt, eaStart, icbFlags, lEa, lAd,
      htag, hlayout, hflags, hlEa, hlAd, htype, hads⟩
    have hfile : buf[27]? = some buf[27] := List.getElem?_eq_getElem _
    unfold parseFe at h
    rw [htag, ok_bind, hlayout, ok_bind, hfile] at h
    simp only [okOr, ok_bind, hflags, hinfo, hlEa, hlAd, hoff hlayout hlEa] at h
    exact answered_fileData.mp (answered_bind.mp h).1 stride ads htype hads
  · intro h
    refine (answered_leAt ..).bind fun tag htag => ?_
    refine Answered.bind ?_ fun layout hlayout => ?_
    · exact Answered.ite (fun _ => trivial) fun _ => Answered.ite (fun _ => trivial) fun _ => trivial
    obtain ⟨lEaAt, lAdAt, eaStart⟩ := layout
    refine Answered.bind (answered_okOr ..) fun fileType hfile => ?_
    refine (answered_leAt ..).bind fun icbFlags hflags => ?_
    refine (answered_leAt ..).bind fun infoLen hinfo => ?_
    refine (answered_leAt ..).bind fun lEa hlEa => ?_
    refine (answered_leAt ..).bind fun lAd hlAd => ?_
    refine Answered.bind (answered_okOr ..) fun adOff hadOff => ?_
    have hsum := okOr_eq_ok.mp hadOff
    rw [hoff hlayout hlEa] at hsum
    obtain rfl := Option.some.inj hsum
    refine Answered.bind (answered_fileData.mpr ?_) fun _ _ => trivial
    intro stride ads htype hads
    obtain ⟨hicb, -⟩ := List.getElem?_eq_some_iff.mp (okOr_eq_ok.mp hfile)
    exact h stride ads ⟨hicb, ⟨infoLen, hinfo⟩, tag, lEaAt, lAdAt, eaStart, icbFlags, lEa, lAd,
      htag, hlayout, hflags, hlEa, hlAd, htype, hads⟩

theorem answered_readFe {vol : Volume} {lba : ℕ} (hbs : vol.blockSize < 2 ^ 32)
    (hlba : lba < 2 ^ 32) : Answered (readFe vol lba) ↔ EntryFits vol lba := by
  unfold readFe EntryFits
  rw [answered_bind]
  constructor
  · intro h buf stride ads hbuf hads
    exact answered_parseFe.mp (h.2 buf hbuf) stride ads hads
  · intro h
    refine ⟨answered_readBlock hbs hlba, ?_⟩
    intro buf hbuf
    exact answered_parseFe.mpr fun stride ads => h buf stride ads hbuf

theorem answered_decodeUdfName (fi : List UInt8) : Answered (decodeUdfName fi) := by
  unfold decodeUdfName
  split
  · trivial
  · trivial
  · exact Answered.bind (answered_okOr ..) fun _ _ => trivial
  · trivial

theorem answered_fidEntry {partitionStart : ℕ} {fid : Fid} :
    Answered (fidEntry partitionStart fid.fc fid.fi fid.icbLb) ↔ fid.Fits partitionStart := by
  unfold fidEntry Fid.Fits
  rw [answered_ite, answered_bind]
  constructor
  · rintro ⟨h, -⟩ hlive ⟨name, hname⟩
    exact answered_fits.mp (answered_bind.mp ((h hlive).2 name hname)).1
  · intro h
    refine ⟨fun hlive => ⟨answered_decodeUdfName _, fun name hname => ?_⟩, fun _ => trivial⟩
    exact Answered.bind (answered_fits.mpr (h hlive ⟨name, hname⟩)) fun _ _ => trivial

theorem fidEntry_ok_iff {partitionStart : ℕ} {fid : Fid} (hfits : fid.Fits partitionStart) :
    (∃ entry, fidEntry partitionStart fid.fc fid.fi fid.icbLb = .ok entry) ↔
      (fid.Live → fid.Named) := by
  unfold fidEntry
  constructor
  · rintro ⟨entry, h⟩ hlive
    unfold Fid.Live at hlive
    rw [if_pos hlive] at h
    obtain ⟨name, hname, -⟩ := bind_eq_ok.mp h
    exact ⟨name, hname⟩
  · intro h
    split
    · rename_i hlive
      obtain ⟨name, hname⟩ := h hlive
      have hsum := fits_eq_ok.mpr ⟨hfits hlive ⟨name, hname⟩, rfl⟩
      exact ⟨_, bind_eq_ok.mpr ⟨name, hname, bind_eq_ok.mpr ⟨_, hsum, rfl⟩⟩⟩
    · exact ⟨[], rfl⟩

/-- At a descriptor, its entry is read and the scan goes on after it. -/
theorem parseFidsFrom_at {partitionStart p : ℕ} {data : List UInt8} {fid : Fid}
    (h : FidAt data p fid) :
    parseFidsFrom partitionStart data p = (do
      let entry ← fidEntry partitionStart fid.fc fid.fi fid.icbLb
      let rest ← parseFidsFrom partitionStart data (p + fid.size)
      return entry ++ rest) := by
  rw [parseFidsFrom, if_pos h.in_range, h.tag, ok_bind, if_neg (not_not.mpr rfl), h.fc, h.lFi,
    h.icbLb, h.lIu]
  simp only [unwrap, ok_bind, h.fi, okOr]
  rfl

/-- A scan that is not at a descriptor is answered. -/
theorem answered_parseFidsFrom_stop {partitionStart p : ℕ} {data : List UInt8}
    (h : ∀ fid, ¬FidAt data p fid) : Answered (parseFidsFrom partitionStart data p) := by
  rw [parseFidsFrom]
  refine Answered.ite (fun hrange => ?_) fun _ => trivial
  refine (answered_leAt ..).bind fun tag htag => ?_
  refine Answered.ite (fun _ => trivial) fun hfid => ?_
  have hfc : data[p + 18]? = some data[p + 18] := List.getElem?_eq_getElem _
  have hlFi : data[p + 19]? = some data[p + 19] := List.getElem?_eq_getElem _
  rw [hfc, hlFi]
  simp only [unwrap, ok_bind]
  refine (answered_leAt ..).bind fun icbLb hicbLb => ?_
  refine (answered_leAt ..).bind fun lIu hlIu => ?_
  refine Answered.bind (answered_okOr ..) fun fi hfi => ?_
  have hat : FidAt data p ⟨data[p + 18], data[p + 19], icbLb, lIu, fi⟩ :=
    ⟨hrange, not_not.mp hfid ▸ htag, hfc, hlFi, hicbLb, hlIu, okOr_eq_ok.mp hfi⟩
  exact absurd hat (h _)

theorem Fid.size_pos (fid : Fid) : 0 < fid.size := by
  unfold Fid.size
  omega

theorem FidAt.unique {data : List UInt8} {p : ℕ} {fid fid' : Fid} (h : FidAt data p fid)
    (h' : FidAt data p fid') : fid = fid' := by
  obtain ⟨fc, lFi, icbLb, lIu, fi⟩ := fid
  obtain ⟨fc', lFi', icbLb', lIu', fi'⟩ := fid'
  obtain rfl : fc = fc' := Option.some.inj (h.fc.symm.trans h'.fc)
  obtain rfl : lFi = lFi' := Option.some.inj (h.lFi.symm.trans h'.lFi)
  obtain rfl : icbLb = icbLb' := Except.ok.inj (h.icbLb.symm.trans h'.icbLb)
  obtain rfl : lIu = lIu' := Except.ok.inj (h.lIu.symm.trans h'.lIu)
  obtain rfl : fi = fi' := Option.some.inj (h.fi.symm.trans h'.fi)
  rfl

theorem answered_parseFidsFrom {partitionStart : ℕ} {data : List UInt8} (p : ℕ) :
    Answered (parseFidsFrom partitionStart data p) ↔ FidsFit partitionStart data p := by
  induction hn : data.length - p using Nat.strong_induction_on generalizing p with
  | _ n ih =>
  by_cases hat : ∃ fid, FidAt data p fid
  · obtain ⟨fid, hfid⟩ := hat
    have hsize := fid.size_pos
    have hrange := hfid.in_range
    have hrest := ih _ (by omega) (p + fid.size) rfl
    rw [parseFidsFrom_at hfid, answered_bind, answered_fidEntry]
    constructor
    · rintro ⟨hfits, h⟩ q fid' hreach hfid'
      cases hreach with
      | refl =>
        rw [← hfid.unique hfid']
        exact hfits
      | step hat' hnamed hreach =>
        obtain rfl := hfid.unique hat'
        obtain ⟨entry, hentry⟩ := (fidEntry_ok_iff hfits).mpr hnamed
        exact hrest.mp (answered_bind.mp (h entry hentry)).1 q fid' hreach hfid'
    · intro h
      have hfits := h p fid (.refl p) hfid
      refine ⟨hfits, ?_⟩
      intro entry hentry
      have hnamed := (fidEntry_ok_iff hfits).mp ⟨entry, hentry⟩
      refine Answered.bind (hrest.mpr ?_) fun _ _ => trivial
      exact fun q fid' hreach => h q fid' (.step hfid hnamed hreach)
  · have hnone := not_exists.mp hat
    refine iff_of_true (answered_parseFidsFrom_stop hnone) ?_
    intro q fid hreach hfid
    cases hreach with
    | refl => exact absurd hfid (hnone fid)
    | step hfid' _ _ => exact absurd hfid' (hnone _)

theorem answered_readExtent {vol : Volume} {e : Extent} {intra n : ℕ}
    (hbs : vol.blockSize < 2 ^ 32) (hlba : ∀ lba, e.lba = some lba → lba < 2 ^ 32)
    (hintra : intra < 2 ^ 32) : Answered (readExtent vol e intra n) := by
  unfold readExtent
  split
  · rename_i lba he
    have hlt := hlba lba he
    have hmul : lba * vol.blockSize ≤ (2 ^ 32 - 1) * (2 ^ 32 - 1) :=
      Nat.mul_le_mul (by omega) (by omega)
    exact Answered.bind (answered_fits.mpr (by omega)) fun _ _ => answered_readAt ..
  · trivial

theorem readExtent_length (vol : Volume) (e : Extent) (intra n : ℕ) (bytes : List UInt8)
    (h : readExtent vol e intra n = .ok bytes) : bytes.length = n := by
  unfold readExtent at h
  split at h
  · obtain ⟨disk, -, h⟩ := bind_eq_ok.mp h
    exact Source.readAt_length h
  · obtain rfl := Except.ok.inj h
    exact List.length_replicate

theorem answered_readData {vol : Volume} {inode : UdfInode} {off want : ℕ}
    (hbs : vol.blockSize < 2 ^ 32) (hinode : inode.Bounded) (hwant : off + want ≤ inode.size)  :
    Answered (readData vol inode.data off want) := by
  obtain ⟨hsize, hdata⟩ := hinode
  unfold readData
  split
  · rename_i bytes heq
    rw [heq] at hdata
    have hlen : bytes.length = inode.size := hdata
    refine answered_unwrap.mpr ?_
    rw [ne_eq, slice_eq_none]
    omega
  · rename_i ex heq
    rw [heq] at hdata
    obtain ⟨hbounds, htotal⟩ := hdata
    refine answered_readExtents (readExtent_length vol) ?_ (by omega) (by omega)
      (.inl (Nat.zero_le _))
    intro e he intra n hle
    obtain ⟨hlba, hlen⟩ := hbounds e he
    exact answered_readExtent hbs hlba (by omega)

theorem answered_readAll {vol : Volume} {inode : UdfInode} (hbs : vol.blockSize < 2 ^ 32)
    (hinode : inode.Bounded) : Answered (readAll vol inode) := by
  have hloop : ∀ total (ex : List Extent) out,
      (∀ e ∈ ex, (∀ lba, e.lba = some lba → lba < 2 ^ 32) ∧ e.len < 2 ^ 30) →
        Answered (readAllExtents vol total ex out) := by
    intro total ex
    induction ex with
    | nil => exact fun _ _ => trivial
    | cons e ex ih =>
      intro out hbounds
      have hlba := (hbounds e List.mem_cons_self).1
      refine Answered.ite (fun _ => trivial) fun _ => ?_
      refine (answered_readExtent hbs hlba (by decide)).bind fun chunk _ => ?_
      exact ih _ fun e' he' => hbounds e' (List.mem_cons_of_mem _ he')
  obtain ⟨-, hdata⟩ := hinode
  unfold readAll
  split
  · trivial
  · rename_i ex heq
    rw [heq] at hdata
    refine Answered.bind (answered_checkedLen ..) fun total _ => ?_
    exact (hloop total ex [] hdata.1).bind fun _ _ => trivial

/-- The sums a call forms fit: listing and looking up form some. -/
def CallFits (u : Udf) : Call → Prop
  | .readDir dir => ∀ inode, u.table.inode dir = .ok inode → DirectoryFits u.vol inode
  | .lookup dir _ => ∀ inode, u.table.inode dir = .ok inode → DirectoryFits u.vol inode
  | _ => True

theorem fidEntry_lt {partitionStart icbLb : ℕ} {fc : UInt8} {fi : List UInt8}
    {entry : List (Str × ℕ)} (h : fidEntry partitionStart fc fi icbLb = .ok entry) :
    ∀ fid ∈ entry, fid.2 < 2 ^ 32 := by
  unfold fidEntry at h
  split at h
  · obtain ⟨name, -, h⟩ := bind_eq_ok.mp h
    obtain ⟨lba, hlba, h⟩ := bind_eq_ok.mp h
    obtain rfl := Except.ok.inj h
    obtain ⟨hlt, rfl⟩ := fits_eq_ok.mp hlba
    intro fid hfid
    rw [List.mem_singleton.mp hfid]
    exact hlt
  · obtain rfl := Except.ok.inj h
    exact fun _ hfid => (nomatch hfid)

theorem parseFidsFrom_lt {partitionStart p : ℕ} {data : List UInt8} {fids : List (Str × ℕ)}
    (h : parseFidsFrom partitionStart data p = .ok fids) : ∀ fid ∈ fids, fid.2 < 2 ^ 32 := by
  fun_induction parseFidsFrom partitionStart data p generalizing fids with
  | case1 p hrange ih =>
    obtain ⟨tag, -, h⟩ := bind_eq_ok.mp h
    split at h
    · obtain rfl := Except.ok.inj h
      exact fun _ hfid => (nomatch hfid)
    obtain ⟨fc, -, h⟩ := bind_eq_ok.mp h
    obtain ⟨lFi, -, h⟩ := bind_eq_ok.mp h
    obtain ⟨icbLb, -, h⟩ := bind_eq_ok.mp h
    obtain ⟨lIu, -, h⟩ := bind_eq_ok.mp h
    obtain ⟨fi, -, h⟩ := bind_eq_ok.mp h
    obtain ⟨entry, hentry, h⟩ := bind_eq_ok.mp h
    obtain ⟨rest, hrest, h⟩ := bind_eq_ok.mp h
    obtain rfl := Except.ok.inj h
    intro fid hfid
    rcases List.mem_append.mp hfid with hfid | hfid
    · exact fidEntry_lt hentry fid hfid
    · exact ih lFi lIu hrest fid hfid
  | case2 p hrange =>
    obtain rfl := Except.ok.inj h
    exact fun _ hfid => (nomatch hfid)

theorem listingFits_iff {vol : Volume} {fids : List (Str × ℕ)} (hbs : vol.blockSize < 2 ^ 32)
    (hlt : ∀ fid ∈ fids, fid.2 < 2 ^ 32) :
    InternTable.ParsesAnswered (readFe vol) fids ↔ ListingFits vol fids := by
  induction fids with
  | nil => exact Iff.rfl
  | cons fid fids ih =>
    obtain ⟨name, lba⟩ := fid
    have hrest := ih fun fid' h => hlt fid' (List.mem_cons_of_mem _ h)
    rw [InternTable.ParsesAnswered, ListingFits, hrest,
      answered_readFe hbs (hlt (name, lba) List.mem_cons_self)]

theorem answered_readDir {vol : Volume} {u : Udf} (hu : Opened vol u) (dir : NodeId) :
    Answered (exec (readDir dir) u).1 ↔ CallFits u (.readDir dir) := by
  have hbs : u.vol.blockSize < 2 ^ 32 := hu.vol_eq ▸ hu.blockSize_lt
  have hlisting : ∀ inode : UdfInode, inode.Bounded →
      (Answered (exec (do
        let u ← get
        let data ← (readAll u.vol inode : Outcome _)
        let fids ← parseFids data u.vol.partitionStart
        let parse : ℕ → Outcome UdfInode := readFe u.vol
        onTable (InternTable.internAll id parse UdfInode.kind fids) :
          Method Udf (List DirEntry)) u).1 ↔
      ∀ data, readAll u.vol inode = .ok data → FidsFit u.vol.partitionStart data 0 ∧
        ∀ fids, parseFids data u.vol.partitionStart = .ok fids → ListingFits u.vol fids) := by
    intro inode hinode
    rw [exec_bind, exec_get]
    dsimp only
    rw [answered_exec_lift_bind, iff_true_intro (answered_readAll hbs hinode), true_and]
    refine forall₂_congr fun data _ => ?_
    rw [answered_exec_lift_bind]
    refine and_congr (answered_parseFidsFrom 0) (forall₂_congr fun fids hfids => ?_)
    exact (InternTable.answered_internAll u.table).trans
      (listingFits_iff hbs (parseFidsFrom_lt hfids))
  unfold readDir CallFits
  rw [answered_exec_bind, exec_inode]
  constructor
  · rintro ⟨-, h⟩ inode hfound hkind
    have h := h inode u (by rw [hfound])
    rw [if_neg (not_not.mpr hkind)] at h
    exact (hlisting inode (hu.nodes.inode hfound)).mp h
  · intro h
    refine ⟨answered_okOr .., ?_⟩
    intro inode t hrun
    obtain ⟨hfound, rfl⟩ := Prod.mk.inj hrun
    refine answered_exec_ite.mpr ⟨fun _ => trivial, fun hkind => ?_⟩
    exact (hlisting inode (hu.nodes.inode hfound)).mpr (h inode hfound (not_not.mp hkind))

theorem answered_readAt {vol : Volume} {u : Udf} (hu : Opened vol u) (node : NodeId) (off : ℕ)
    (buf : List UInt8) : Answered (exec (readAt node off buf) u).1 := by
  have hbs : u.vol.blockSize < 2 ^ 32 := hu.vol_eq ▸ hu.blockSize_lt
  unfold readAt
  rw [answered_exec_bind, exec_inode]
  refine ⟨answered_okOr .., ?_⟩
  intro inode t hrun
  obtain ⟨hfound, rfl⟩ := Prod.mk.inj hrun
  refine answered_exec_ite.mpr ⟨fun _ => trivial, fun _ => ?_⟩
  refine answered_exec_ite.mpr ⟨fun _ => trivial, fun hoff => ?_⟩
  rw [exec_bind, exec_get]
  dsimp only
  refine answered_exec_lift_bind.mpr ⟨?_, fun _ _ => trivial⟩
  exact answered_readData hbs (hu.nodes.inode hfound) (by omega)

theorem sector_lt : sector < 2 ^ 32 := by decide

theorem readBlock_length {src : Source} {blockSize lba : ℕ} {b : List UInt8}
    (h : readBlock src blockSize lba = .ok b) : b.length = blockSize := by
  obtain ⟨off, -, h⟩ := bind_eq_ok.mp h
  obtain ⟨stop, -, h⟩ := bind_eq_ok.mp h
  exact Source.readAt_length (ite_error_eq_ok.mp h).2

theorem answered_walkVds {src : Source} {mvdsLoc count i : ℕ} {found : Vds} :
    Answered (walkVds src mvdsLoc count i found) ↔ SequenceFits src mvdsLoc count i := by
  induction count generalizing i found with
  | zero => exact iff_true_intro trivial
  | succ count ih =>
    rw [walkVds, SequenceFits, answered_bind, lift_self, answered_fits]
    refine and_congr_right fun hlt => ?_
    constructor
    · rintro h ⟨b, tag, hb, htag, hne⟩
      have h := h _ (fits_eq_ok.mpr ⟨hlt, rfl⟩)
      have hlen := readBlock_length hb
      have hfield : ∀ o, o + 4 ≤ 2048 → ∃ v, leU32 b o = .ok v :=
        fun o ho => leAt_of_le _ (hlen ▸ ho)
      obtain ⟨start, hstart⟩ := hfield 188 (by decide)
      obtain ⟨lbs, hlbs⟩ := hfield 212 (by decide)
      obtain ⟨fsdLb, hfsdLb⟩ := hfield 252 (by decide)
      rw [hb, ok_bind, htag, lift_ok_bind, hstart, hlbs, hfsdLb] at h
      simp only [lift_ok_bind] at h
      split_ifs at h
      · exact ih.mp h
      · exact ih.mp h
      · exact ih.mp h
    · intro h lba hlba
      obtain ⟨-, rfl⟩ := fits_eq_ok.mp hlba
      refine (answered_readBlock sector_lt hlt).bind fun b hb => ?_
      refine (answered_leAt ..).bind fun tag htag => ?_
      have hnext : tag ≠ tagTerminating → ∀ found,
          Answered (walkVds src mvdsLoc count (i + 1) found) :=
        fun hne found => ih.mpr (h ⟨b, tag, hb, htag, hne⟩)
      refine Answered.ite (fun htag => ?_) fun _ => ?_
      · refine (answered_leAt ..).bind fun start _ => hnext (by rw [htag]; decide) _
      refine Answered.ite (fun htag => ?_) fun _ => ?_
      · refine (answered_leAt ..).bind fun lbs _ => ?_
        exact (answered_leAt ..).bind fun fsdLb _ => hnext (by rw [htag]; decide) _
      exact Answered.ite (fun _ => trivial) fun hne => hnext hne _

theorem walkVds_lt {src : Source} {mvdsLoc count i : ℕ} {found vds : Vds}
    (hfound : ∀ lvd, found.lvd = some lvd → lvd.1 < 2 ^ 32)
    (h : walkVds src mvdsLoc count i found = .ok vds) :
    ∀ lvd, vds.lvd = some lvd → lvd.1 < 2 ^ 32 := by
  induction count generalizing i found with
  | zero =>
    obtain rfl := Except.ok.inj h
    exact hfound
  | succ count ih =>
    obtain ⟨lba, -, h⟩ := bind_eq_ok.mp h
    obtain ⟨b, -, h⟩ := bind_eq_ok.mp h
    obtain ⟨tag, -, h⟩ := bind_eq_ok.mp h
    split at h
    · obtain ⟨start, -, h⟩ := bind_eq_ok.mp h
      refine ih ?_ h
      exact hfound
    split at h
    · obtain ⟨lbs, hlbs, h⟩ := bind_eq_ok.mp h
      obtain ⟨fsdLb, -, h⟩ := bind_eq_ok.mp h
      refine ih ?_ h
      intro lvd hlvd
      obtain rfl := Option.some.inj hlvd
      exact leAt_lt hlbs
    split at h
    · obtain rfl := Except.ok.inj h
      exact hfound
    · exact ih hfound h

theorem openVolume_spec {src : Source} {vol : Volume} {fsdLb : ℕ}
    (h : openVolume src = .ok (vol, fsdLb)) : vol.src = src ∧ vol.blockSize < 2 ^ 32 := by
  obtain ⟨avdp, -, h⟩ := bind_eq_ok.mp h
  obtain ⟨tag, -, h⟩ := bind_eq_ok.mp h
  obtain ⟨-, h⟩ := ite_error_eq_ok.mp h
  obtain ⟨mvdsLen, -, h⟩ := bind_eq_ok.mp h
  obtain ⟨mvdsLoc, -, h⟩ := bind_eq_ok.mp h
  obtain ⟨found, hfound, h⟩ := bind_eq_ok.mp h
  obtain ⟨start, -, h⟩ := bind_eq_ok.mp h
  obtain ⟨lvd, hlvd, h⟩ := bind_eq_ok.mp h
  obtain ⟨rfl, -⟩ := Prod.mk.inj (Except.ok.inj h)
  have hnone : ∀ lvd : ℕ × ℕ, (⟨none, none⟩ : Vds).lvd = some lvd → lvd.1 < 2 ^ 32 := by simp
  have hlt := walkVds_lt hnone hfound lvd (okOr_eq_ok.mp hlvd)
  refine ⟨rfl, ?_⟩
  dsimp only
  split
  · exact hlt
  · exact sector_lt

theorem answered_openVolume {src : Source} :
    Answered (openVolume src) ↔ ∀ avdp mvdsLen mvdsLoc,
      readBlock src sector avdpSector = .ok avdp → leU16 avdp 0 = .ok tagAvdp →
        leU32 avdp 16 = .ok mvdsLen → leU32 avdp 20 = .ok mvdsLoc →
          SequenceFits src mvdsLoc (min (mvdsLen / sector) maxVdsSectors) 0 := by
  constructor
  · intro h avdp mvdsLen mvdsLoc havdp htag hlen hloc
    unfold openVolume at h
    rw [havdp, ok_bind, htag, lift_ok_bind, if_neg (not_not.mpr rfl), hlen, lift_ok_bind, hloc,
      lift_ok_bind, answered_bind] at h
    exact answered_walkVds.mp h.1
  · intro h
    refine (answered_readBlock sector_lt (by decide)).bind fun avdp havdp => ?_
    refine (answered_leAt ..).bind fun tag htag => ?_
    refine Answered.ite (fun _ => trivial) fun hne => ?_
    rw [not_not.mp hne] at htag
    refine (answered_leAt ..).bind fun mvdsLen hlen => ?_
    refine (answered_leAt ..).bind fun mvdsLoc hloc => ?_
    refine Answered.bind (answered_walkVds.mpr (h _ _ _ havdp htag hlen hloc)) fun found _ => ?_
    refine Answered.bind (answered_okOr ..) fun start _ => ?_
    exact Answered.bind (answered_okOr ..) fun _ _ => trivial

theorem answered_mount {src : Source} : Answered (mount src) ↔ MountFits src := by
  unfold mount
  rw [answered_bind, answered_openVolume]
  constructor
  · rintro ⟨hsequence, h⟩
    have hfirst : ∀ vol fsdLb, openVolume src = .ok (vol, fsdLb) →
        vol.partitionStart + fsdLb < 2 ^ 32 := by
      intro vol fsdLb hopen
      exact answered_fits.mp (answered_bind.mp (answered_bind.mp (h (vol, fsdLb) hopen)).1).1
    refine ⟨hsequence, hfirst, ?_⟩
    intro vol fsdLb fsd rootIcbLb hopen hfsd htag hicb
    obtain ⟨hsrc, hbs⟩ := openVolume_spec hopen
    have h := h (vol, fsdLb) hopen
    have hsum : u32 (vol.partitionStart + fsdLb) = .ok (vol.partitionStart + fsdLb) :=
      fits_eq_ok.mpr ⟨hfirst vol fsdLb hopen, rfl⟩
    have hroot : rootFe vol fsdLb = u32 (vol.partitionStart + rootIcbLb) := by
      unfold rootFe
      rw [hsum, lift_ok_bind, hsrc, hfsd, ok_bind, htag, lift_ok_bind, if_neg (not_not.mpr rfl), hicb,
        lift_ok_bind]
      rfl
    dsimp only at h
    rw [hroot, answered_bind, answered_fits] at h
    refine ⟨h.1, ?_⟩
    have hfe := h.2 _ (fits_eq_ok.mpr ⟨h.1, rfl⟩)
    exact (answered_readFe hbs h.1).mp (answered_bind.mp hfe).1
  · rintro ⟨hsequence, hfileSet, hroot⟩
    refine ⟨hsequence, ?_⟩
    rintro ⟨vol, fsdLb⟩ hopen
    obtain ⟨hsrc, hbs⟩ := openVolume_spec hopen
    have hfits := hfileSet vol fsdLb hopen
    have hsum : u32 (vol.partitionStart + fsdLb) = .ok (vol.partitionStart + fsdLb) :=
      fits_eq_ok.mpr ⟨hfits, rfl⟩
    have hfsd : ∀ {lba}, rootFe vol fsdLb = .ok lba → lba < 2 ^ 32 ∧ EntryFits vol lba := by
      intro lba hlba
      unfold rootFe at hlba
      rw [hsum, lift_ok_bind, hsrc] at hlba
      obtain ⟨fsd, hfsd, hlba⟩ := bind_eq_ok.mp hlba
      obtain ⟨tag, htag, hlba⟩ := bind_eq_ok.mp hlba
      obtain ⟨hne, hlba⟩ := ite_error_eq_ok.mp hlba
      rw [not_not.mp hne] at htag
      obtain ⟨icb, hicb, hlba⟩ := bind_eq_ok.mp hlba
      obtain ⟨-, rfl⟩ := fits_eq_ok.mp hlba
      exact hroot vol fsdLb fsd icb hopen hfsd htag hicb
    refine Answered.bind ?_ fun lba hlba => ?_
    · refine Answered.bind (answered_fits.mpr hfits) fun fsdLba hfsdLba => ?_
      obtain ⟨-, rfl⟩ := fits_eq_ok.mp hfsdLba
      refine (answered_readBlock hbs hfits).bind fun fsd hfsd => ?_
      rw [hsrc] at hfsd
      refine (answered_leAt ..).bind fun tag htag => ?_
      refine Answered.ite (fun _ => trivial) fun hne => ?_
      rw [not_not.mp hne] at htag
      refine (answered_leAt ..).bind fun icb hicb => ?_
      exact answered_fits.mpr (hroot vol fsdLb fsd icb hopen hfsd htag hicb).1
    · obtain ⟨hlt, hentry⟩ := hfsd hlba
      exact ((answered_readFe hbs hlt).mpr hentry).bind fun _ _ => trivial

theorem mount_opened {src : Source} {u : Udf} (h : mount src = .ok u) : Opened u.vol u := by
  obtain ⟨⟨vol, fsdLb⟩, hopen, h⟩ := bind_eq_ok.mp h
  obtain ⟨lba, -, h⟩ := bind_eq_ok.mp h
  obtain ⟨root, hroot, h⟩ := bind_eq_ok.mp h
  obtain rfl := Except.ok.inj h
  refine ⟨rfl, (openVolume_spec hopen).2, ?_⟩
  exact (InternTable.all_empty _).intern lba (readFe_bounded hroot)

/-- Opening, and any call in any state a mounted volume can reach, is answered
exactly when the block addresses it forms fit in 32 bits. -/
theorem answers_iff_addressesFit (src : Source) :
    (Answered (mount src) ↔ MountFits src) ∧
      ∀ u t call, mount src = .ok u → Reaches (fun _ : Unit => frontend) u t →
        (frontend.Answers call t ↔ CallFits t call) := by
  refine ⟨answered_mount, ?_⟩
  intro u t call hmount hrun
  have ht := hrun.keeps (fun _ => frontend_keeps_opened u.vol) (mount_opened hmount)
  cases call with
  | lookup dir name =>
    refine Iff.trans ?_ (answered_readDir ht dir)
    refine answered_exec_bind.trans (and_iff_left ?_)
    intro entries v _
    trivial
  | readDir dir => exact answered_readDir ht dir
  | metadata node =>
    refine iff_true_intro (answered_exec_bind.mpr ⟨answered_okOr .., ?_⟩)
    intro inode v _
    trivial
  | readAt node off buf => exact iff_true_intro (answered_readAt ht node off buf)
  | readLink node => exact iff_true_intro trivial

/-- A sector that begins with `bytes`. -/
def sectorOf (bytes : List UInt8) : List UInt8 :=
  bytes ++ List.replicate (sector - bytes.length) 0

/-- A source whose first 256 sectors are empty, and the next ones begin with `heads`. -/
def farSource (heads : List (List UInt8)) (hheads : ∀ bytes ∈ heads, bytes.length ≤ sector)
    (hcount : heads.length < 2 ^ 16) : Source where
  content := List.replicate (avdpSector * sector) 0 ++ (heads.map sectorOf).flatten
  length_lt := by
    have hall : ∀ b ∈ heads.map sectorOf, b.length = sector := by
      intro b hb
      obtain ⟨bytes, hbytes, rfl⟩ := List.mem_map.mp hb
      have hle := hheads bytes hbytes
      rw [sectorOf, List.length_append, List.length_replicate]
      omega
    rw [List.length_append, List.length_replicate, length_flatten_of_eq hall, List.length_map]
    unfold avdpSector sector
    omega

section Far

variable {heads : List (List UInt8)} {hheads : ∀ bytes ∈ heads, bytes.length ≤ sector}
  {hcount : heads.length < 2 ^ 16}

theorem readBlock_far {k : ℕ} {bytes : List UInt8} (hk : heads[k]? = some bytes) :
    readBlock (farSource heads hheads hcount) sector (avdpSector + k) = .ok (sectorOf bytes) := by
  have hall : ∀ b ∈ heads.map sectorOf, b.length = sector := by
    intro b hb
    obtain ⟨bytes, hbytes, rfl⟩ := List.mem_map.mp hb
    have hle := hheads bytes hbytes
    rw [sectorOf, List.length_append, List.length_replicate]
    omega
  have hmap : (heads.map sectorOf)[k]? = some (sectorOf bytes) := by
    rw [List.getElem?_map, hk]
    rfl
  have hslice := slice_flatten hall hmap
  have hfar := slice_append_right (List.replicate (avdpSector * sector) 0)
    (heads.map sectorOf).flatten (k * sector) sector
  rw [List.length_replicate, hslice, ← Nat.add_mul] at hfar
  have hread : (farSource heads hheads hcount).readAt ((avdpSector + k) * sector) sector =
      .ok (sectorOf bytes) := Source.readAt_eq_ok.mpr hfar
  have hle := Source.readAt_le hread
  have hlt := (farSource heads hheads hcount).length_lt
  have hlen : (farSource heads hheads hcount).len < 2 ^ 64 := hlt
  have hoff : u64 ((avdpSector + k) * sector) = .ok _ := fits_eq_ok.mpr ⟨by omega, rfl⟩
  have hstop : u64 ((avdpSector + k) * sector + sector) = .ok _ := fits_eq_ok.mpr ⟨by omega, rfl⟩
  rw [readBlock, hoff, lift_ok_bind, hstop, lift_ok_bind, if_neg (Nat.not_lt.mpr hle)]
  exact hread

end Far

/-- A field that lies in the beginning of a sector. -/
theorem leAt_sectorOf {n o v : ℕ} {what : String} {bytes pre field post : List UInt8}
    (hbytes : bytes = pre ++ field ++ post) (ho : o = pre.length) (hn : n = field.length)
    (hv : leNat field = v) : leAt n what (sectorOf bytes) o = .ok v := by
  have hsector : sectorOf bytes =
      pre ++ field ++ (post ++ List.replicate (sector - bytes.length) 0) := by
    unfold sectorOf
    nth_rewrite 1 [hbytes]
    rw [List.append_assoc]
  obtain rfl := hv
  exact bind_eq_ok.mpr ⟨field, okOr_eq_ok.mpr (slice_of_append hsector ho hn), rfl⟩

theorem leAt_sectorOf_zero {n v : ℕ} {what : String} {bytes field post : List UInt8}
    (hbytes : bytes = field ++ post) (hn : n = field.length) (hv : leNat field = v) :
    leAt n what (sectorOf bytes) 0 = .ok v :=
  @leAt_sectorOf n 0 v what bytes [] field post hbytes rfl hn hv

/-- How the anchor begins: two sectors of descriptors follow it. -/
def anchor : List UInt8 := [2, 0] ++ List.replicate 14 0 ++ [0, 16, 0, 0] ++ [1, 1, 0, 0]

/-- How the descriptor of a partition begins. -/
def partition (start : List UInt8) : List UInt8 := [5, 0] ++ List.replicate 186 0 ++ start

/-- How the descriptor of a logical volume begins. -/
def logicalVolume (fsdLb : List UInt8) : List UInt8 :=
  [6, 0] ++ List.replicate 210 0 ++ [0, 8, 0, 0] ++ List.replicate 36 0 ++ fsdLb

/-- The first three sectors that are not empty. -/
def descriptors (start fsdLb : List UInt8) : List (List UInt8) :=
  [anchor, partition start, logicalVolume fsdLb]

/-- Opening gets past the descriptors. -/
theorem openVolume_far {start fsdLb : List UInt8} {rest : List (List UInt8)}
    {hheads : ∀ bytes ∈ descriptors start fsdLb ++ rest, bytes.length ≤ sector}
    {hcount : (descriptors start fsdLb ++ rest).length < 2 ^ 16} (hstart : 4 = start.length)
    (hfsdLb : 4 = fsdLb.length) :
    openVolume (farSource _ hheads hcount) =
      .ok (⟨farSource _ hheads hcount, sector, leNat start⟩, leNat fsdLb) := by
  have h0 : readBlock (farSource _ hheads hcount) sector avdpSector = .ok (sectorOf anchor) :=
    readBlock_far (k := 0) rfl
  have h1 : readBlock (farSource _ hheads hcount) sector 257 = .ok (sectorOf (partition start)) :=
    readBlock_far (k := 1) rfl
  have h2 : readBlock (farSource _ hheads hcount) sector 258 =
      .ok (sectorOf (logicalVolume fsdLb)) := readBlock_far (k := 2) rfl
  have hanchor : leU16 (sectorOf anchor) 0 = .ok tagAvdp ∧
      leU32 (sectorOf anchor) 16 = .ok 4096 ∧ leU32 (sectorOf anchor) 20 = .ok 257 :=
    ⟨leAt_sectorOf_zero (by simp only [anchor, List.append_assoc]; rfl) rfl (by decide),
      leAt_sectorOf rfl rfl rfl (by decide),
      leAt_sectorOf (List.append_nil _).symm rfl rfl (by decide)⟩
  have hpartition : leU16 (sectorOf (partition start)) 0 = .ok tagPartition ∧
      leU32 (sectorOf (partition start)) 188 = .ok (leNat start) :=
    ⟨leAt_sectorOf_zero (List.append_assoc [5, 0] _ _) rfl (by decide),
      leAt_sectorOf (List.append_nil _).symm
        (by simp only [List.length_append, List.length_replicate]; rfl) hstart rfl⟩
  have hvolume : leU16 (sectorOf (logicalVolume fsdLb)) 0 = .ok tagLogicalVolume ∧
      leU32 (sectorOf (logicalVolume fsdLb)) 212 = .ok sector ∧
      leU32 (sectorOf (logicalVolume fsdLb)) 252 = .ok (leNat fsdLb) :=
    ⟨leAt_sectorOf_zero (by simp only [logicalVolume, List.append_assoc]; rfl) rfl (by decide),
      leAt_sectorOf (List.append_assoc _ _ _)
        (by simp only [List.length_append, List.length_replicate]; rfl) rfl (by decide),
      leAt_sectorOf (List.append_nil _).symm
        (by simp only [List.length_append, List.length_replicate]; rfl) hfsdLb rfl⟩
  have hwalk : walkVds (farSource _ hheads hcount) 257 2 0 ⟨none, none⟩ =
      .ok ⟨some (leNat start), some (sector, leNat fsdLb)⟩ := by
    have hfirst : u32 (257 + 0) = .ok 257 := rfl
    have hsecond : u32 (257 + (0 + 1)) = .ok 258 := rfl
    rw [walkVds, hfirst, lift_ok_bind, h1, ok_bind, hpartition.1, lift_ok_bind, if_pos rfl,
      hpartition.2, lift_ok_bind, walkVds, hsecond, lift_ok_bind, h2, ok_bind, hvolume.1,
      lift_ok_bind, if_neg (by decide), if_pos rfl, hvolume.2.1, lift_ok_bind, hvolume.2.2,
      lift_ok_bind]
    rfl
  have hcount' : min (4096 / sector) maxVdsSectors = 2 := rfl
  unfold openVolume
  rw [h0, ok_bind, hanchor.1, lift_ok_bind, if_neg (not_not.mpr rfl), hanchor.2.1, lift_ok_bind,
    hanchor.2.2, lift_ok_bind, hcount', hwalk]
  rfl

/-- How a File Set Descriptor begins. -/
def fileSet (rootIcbLb : List UInt8) : List UInt8 := [0, 1] ++ List.replicate 402 0 ++ rootIcbLb

/-- Opening reads the root's File Entry. -/
theorem mount_rootEntry {entry : List UInt8} {rest : List (List UInt8)} {inode : UdfInode}
    {hheads : ∀ bytes ∈ descriptors [1, 1, 0, 0] [2, 0, 0, 0] ++
      fileSet [3, 0, 0, 0] :: entry :: rest, bytes.length ≤ sector}
    {hcount : (descriptors [1, 1, 0, 0] [2, 0, 0, 0] ++
      fileSet [3, 0, 0, 0] :: entry :: rest).length < 2 ^ 16}
    (hparse : parseFe 257 (sectorOf entry) = .ok inode) :
    mount (farSource _ hheads hcount) =
      .ok ⟨⟨farSource _ hheads hcount, 2048, 257⟩, (InternTable.empty.intern 260 inode).2⟩ := by
  have hopen : openVolume (farSource _ hheads hcount) =
      .ok (⟨farSource _ hheads hcount, sector, 257⟩, 2) := openVolume_far rfl rfl
  have hfsd : readBlock (farSource _ hheads hcount) sector 259 =
      .ok (sectorOf (fileSet [3, 0, 0, 0])) := readBlock_far (k := 3) rfl
  have hfe : readBlock (farSource _ hheads hcount) sector 260 = .ok (sectorOf entry) :=
    readBlock_far (k := 4) rfl
  have hroot : rootFe ⟨farSource _ hheads hcount, sector, 257⟩ 2 = .ok 260 := by
    have hsum : u32 (257 + 2) = .ok 259 := rfl
    have htag : leU16 (sectorOf (fileSet [3, 0, 0, 0])) 0 = .ok tagFileSet :=
      leAt_sectorOf_zero (List.append_assoc [0, 1] _ _) rfl (by decide)
    have hicb : leU32 (sectorOf (fileSet [3, 0, 0, 0])) 404 = .ok 3 :=
      leAt_sectorOf (List.append_nil _).symm
        (by simp only [List.length_append, List.length_replicate]; rfl) rfl (by decide)
    unfold rootFe
    rw [hsum, lift_ok_bind, hfsd, ok_bind, htag, lift_ok_bind, if_neg (not_not.mpr rfl), hicb]
    rfl
  have hread : readFe ⟨farSource _ hheads hcount, sector, 257⟩ 260 = .ok inode :=
    bind_eq_ok.mpr ⟨_, hfe, hparse⟩
  exact bind_eq_ok.mpr ⟨_, hopen, bind_eq_ok.mpr ⟨_, hroot, bind_eq_ok.mpr ⟨_, hread, rfl⟩⟩⟩

/-- A partition at the last block, and a File Set Descriptor in its block 1. -/
def lastBlock : List (List UInt8) := descriptors [255, 255, 255, 255] [1, 0, 0, 0] ++ []

/-- The address of the File Set Descriptor leaves 32 bits, and opening panics. -/
theorem mount_lastBlock :
    mount (farSource lastBlock (by decide +kernel) (by decide)) = .error .panic := by
  have hopen : openVolume (farSource lastBlock (by decide +kernel) (by decide)) =
      .ok (⟨farSource lastBlock (by decide +kernel) (by decide), sector, 2 ^ 32 - 1⟩, 1) :=
    openVolume_far rfl rfl
  have hsum : u32 (2 ^ 32 - 1 + 1) = .error .panic := rfl
  have hroot : rootFe ⟨farSource lastBlock (by decide +kernel) (by decide), sector, 2 ^ 32 - 1⟩ 1 =
      .error .panic := by
    unfold rootFe
    rw [hsum]
    rfl
  unfold mount
  rw [hopen, ok_bind]
  simp only [hroot]
  rfl

end Lamfold.Udf
