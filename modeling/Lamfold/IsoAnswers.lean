import Lamfold.Chains
import Lamfold.IsoState

/-!
Every call on an ISO 9660 volume is answered, whatever the medium holds. Indexes
into records and tables are in range by the checks around them, sums are formed of
fields that are narrow enough, and the loops advance: the scan of a directory by at
least a byte, a chain of continuation areas for at most sixteen of them.
-/
namespace Lamfold

open Effects Bytes RockRidge

theorem answered_getElem {α : Type} {xs : List α} {i : ℕ} (h : i < xs.length) :
    Answered (unwrap xs[i]?) :=
  answered_unwrap.mpr fun hnone => absurd (List.getElem?_eq_none_iff.mp hnone) (by omega)

theorem unwrap_slice {α : Type} (xs : List α) (off n : ℕ) (h : off + n ≤ xs.length) :
    unwrap (slice xs off n) = .ok ((xs.drop off).take n) :=
  unwrap_eq_ok.mpr (slice_eq_some.mpr ⟨h, rfl⟩)

theorem answered_slice {α : Type} {xs : List α} {off n : ℕ} (h : off + n ≤ xs.length) :
    Answered (unwrap (slice xs off n)) := answered_of_eq_ok (unwrap_slice xs off n h)

namespace RockRidge

theorem le32_ok (data : List UInt8) (o : ℕ) (h : o + 4 ≤ data.length) :
    ∃ v, le32 data o = .ok v :=
  ⟨_, bind_eq_ok.mpr ⟨_, unwrap_slice data o 4 h, rfl⟩⟩

theorem getElem_ok (xs : List UInt8) (i : ℕ) (h : i < xs.length) : ∃ b, unwrap xs[i]? = .ok b :=
  ⟨xs[i], unwrap_eq_ok.mpr (List.getElem?_eq_getElem h)⟩

theorem answered_detectSp {su : List UInt8} : Answered (detectSp su) := by
  unfold detectSp
  fun_induction detectSpFrom su 0 with
  | case1 p hp ihCheck ihOther =>
    refine (answered_getElem (by omega)).bind fun len _ => ?_
    split
    · trivial
    · rename_i hlen
      refine (answered_slice (by omega)).bind fun sig _ => ?_
      refine Answered.ite (fun hsig => ?_) fun _ => ihOther len hlen
      refine (answered_slice (by omega)).bind fun check _ => ?_
      refine Answered.ite (fun _ => ?_) fun _ => ihCheck len hlen sig hsig
      exact (answered_getElem (by omega)).bind fun _ _ => trivial
  | case2 p hp => trivial

theorem parseSlComponents_ok {comp out : List UInt8} {continues : Bool} :
    ∃ r, parseSlComponents comp out continues = .ok r := by
  fun_induction parseSlComponents comp out continues with
  | case1 comp out continues hcomp ih =>
    obtain ⟨flags, hflags⟩ := getElem_ok comp 0 (by omega)
    obtain ⟨clen, hclen⟩ := getElem_ok comp 1 (by omega)
    rw [hflags, ok_bind, hclen, ok_bind]
    split
    · exact ⟨_, rfl⟩
    · rename_i hlen
      rw [unwrap_slice comp 2 clen.toNat (by omega), ok_bind]
      exact ih flags clen hlen _
  | case2 comp out continues hcomp => exact ⟨_, rfl⟩

/-- No entry is refused. -/
theorem entry_ok (parser : RrParser) (sig data : List UInt8) :
    ∃ parser', parser.entry sig data = .ok parser' := by
  unfold RrParser.entry
  split
  · split
    · exact ⟨_, rfl⟩
    · split
      · exact ⟨_, rfl⟩
      · exact ⟨_, rfl⟩
  split
  · split
    · rename_i hlen
      obtain ⟨mode, hmode⟩ := le32_ok data 0 hlen
      exact ⟨_, bind_eq_ok.mpr ⟨mode, hmode, rfl⟩⟩
    · exact ⟨_, rfl⟩
  split
  · split
    · exact ⟨_, rfl⟩
    · obtain ⟨r, hr⟩ := parseSlComponents_ok
      exact ⟨_, bind_eq_ok.mpr ⟨r, hr, rfl⟩⟩
  split
  · split
    · rename_i hlen
      rw [unwrap_slice data 0 2 (by omega), ok_bind]
      split
      · obtain ⟨log2, hlog2⟩ := getElem_ok data 3 (by omega)
        obtain ⟨size, hsize⟩ := le32_ok data 4 (by omega)
        exact ⟨_, bind_eq_ok.mpr ⟨log2, hlog2, bind_eq_ok.mpr ⟨size, hsize, rfl⟩⟩⟩
      · exact ⟨_, rfl⟩
    · exact ⟨_, rfl⟩
  · exact ⟨_, rfl⟩

theorem continuation_ok (sig data : List UInt8) (next : Option Continuation) :
    ∃ next', continuation sig data next = .ok next' := by
  unfold continuation
  split
  · rename_i h
    obtain ⟨block, hblock⟩ := le32_ok data 0 (by omega)
    obtain ⟨offset, hoffset⟩ := le32_ok data 8 (by omega)
    obtain ⟨len, hlen⟩ := le32_ok data 16 (by omega)
    exact ⟨_, bind_eq_ok.mpr ⟨block, hblock, bind_eq_ok.mpr ⟨offset, hoffset,
      bind_eq_ok.mpr ⟨len, hlen, rfl⟩⟩⟩⟩
  · exact ⟨_, rfl⟩

/-- Where the entries of an area go on does not depend on those before it. -/
theorem feedFrom_ok {su : List UInt8} (next : Option Continuation) (p : ℕ) :
    ∃ next', ∀ parser : RrParser, ∃ parser',
      parser.feedFrom su next p = .ok (parser', next') := by
  induction hn : su.length - p using Nat.strong_induction_on generalizing next p with
  | _ n ih =>
  by_cases hp : p + 4 ≤ su.length
  · obtain ⟨len, hlen⟩ := getElem_ok su (p + 2) (by omega)
    by_cases hstop : len.toNat < 4 ∨ p + len.toNat > su.length
    · refine ⟨next, fun parser => ⟨parser, ?_⟩⟩
      rw [RrParser.feedFrom, if_pos hp, hlen, ok_bind, dif_pos hstop]
      rfl
    · have hsig := unwrap_slice su p 2 (by omega)
      have hdata : unwrap (sliceRange su (p + 4) (p + len.toNat)) =
          .ok ((su.drop (p + 4)).take (p + len.toNat - (p + 4))) :=
        unwrap_eq_ok.mpr (sliceRange_eq_some.mpr ⟨by omega, by omega, rfl⟩)
      by_cases hlast : (su.drop p).take 2 = sigSt
      · refine ⟨next, fun parser => ⟨parser, ?_⟩⟩
        rw [RrParser.feedFrom, if_pos hp, hlen, ok_bind, dif_neg hstop, hsig, ok_bind, hdata,
          ok_bind, if_pos hlast]
        rfl
      · obtain ⟨next₁, hnext⟩ := continuation_ok ((su.drop p).take 2)
          ((su.drop (p + 4)).take (p + len.toNat - (p + 4))) next
        obtain ⟨next', hrest⟩ := ih _ (by omega) next₁ (p + len.toNat) rfl
        refine ⟨next', fun parser => ?_⟩
        obtain ⟨parser₁, hentry⟩ := entry_ok parser ((su.drop p).take 2)
          ((su.drop (p + 4)).take (p + len.toNat - (p + 4)))
        obtain ⟨parser', hparser'⟩ := hrest parser₁
        refine ⟨parser', ?_⟩
        rw [RrParser.feedFrom, if_pos hp, hlen, ok_bind, dif_neg hstop, hsig, ok_bind, hdata,
          ok_bind, if_neg hlast, hentry, ok_bind, hnext, ok_bind]
        exact hparser'
  · refine ⟨next, fun parser => ⟨parser, ?_⟩⟩
    rw [RrParser.feedFrom, if_neg hp]

theorem feed_ok (su : List UInt8) :
    ∃ next, ∀ parser : RrParser, ∃ parser', parser.feed su = .ok (parser', next) :=
  feedFrom_ok none 0

end RockRidge

namespace ElTorito

theorem parseEntry_ok {e : List UInt8} : ∃ image, parseEntry e = .ok image := by
  unfold parseEntry
  split
  · exact ⟨none, rfl⟩
  · obtain ⟨indicator, hindicator⟩ := getElem_ok e 0 (by omega)
    rw [hindicator, ok_bind]
    split
    · exact ⟨none, rfl⟩
    · rw [unwrap_slice e 6 2 (by omega), ok_bind, unwrap_slice e 8 4 (by omega), ok_bind]
      exact ⟨_, rfl⟩

theorem sectionEntries_ok {cat : List UInt8} {count off : ℕ} :
    ∃ r, sectionEntries cat count off = .ok r := by
  induction count generalizing off with
  | zero => exact ⟨_, rfl⟩
  | succ count ih =>
    rw [sectionEntries]
    split
    · exact ⟨_, rfl⟩
    · obtain ⟨image, himage⟩ := @parseEntry_ok ((cat.drop off).take 32)
      rw [unwrap_slice cat off 32 (by omega), ok_bind, himage, ok_bind]
      cases image with
      | some image => exact ⟨_, rfl⟩
      | none => exact ih

theorem sectionImage_ok {cat : List UInt8} {platform : UInt8} {count off : ℕ} :
    ∃ r, sectionImage cat platform count off = .ok r := by
  unfold sectionImage
  split
  · exact sectionEntries_ok
  · exact ⟨_, rfl⟩

theorem sectionsFrom_ok {cat : List UInt8} {off : ℕ} : ∃ image, sectionsFrom cat off = .ok image := by
  fun_induction sectionsFrom cat off with
  | case1 off hoff ih =>
    have hlen : ((cat.drop off).take 32).length = 32 := by
      rw [List.length_take, List.length_drop]
      omega
    obtain ⟨indicator, hindicator⟩ := getElem_ok ((cat.drop off).take 32) 0 (by omega)
    obtain ⟨platform, hplatform⟩ := getElem_ok ((cat.drop off).take 32) 1 (by omega)
    rw [unwrap_slice cat off 32 hoff, ok_bind, hindicator, ok_bind]
    split
    · exact ⟨none, rfl⟩
    · rw [hplatform, ok_bind, unwrap_slice _ 2 2 (by omega), ok_bind]
      split
      · rename_i fault hfault
        obtain ⟨r, hr⟩ := @sectionImage_ok cat platform
          (leNat ((((cat.drop off).take 32).drop 2).take 2)) (off + 32)
        cases hfault.symm.trans hr
      · exact ⟨_, rfl⟩
      · rename_i next hnext
        split
        · exact ⟨none, rfl⟩
        · exact ih platform _ next hnext
  | case2 off hoff => exact ⟨none, rfl⟩

/-- A catalog is walked to its end, whatever it holds. -/
theorem parseCatalog_ok {cat : List UInt8} : ∃ image, parseCatalog cat = .ok image := by
  unfold parseCatalog
  split
  · exact ⟨none, rfl⟩
  · obtain ⟨header, hheader⟩ := getElem_ok cat 0 (by omega)
    obtain ⟨platform, hplatform⟩ := getElem_ok cat 1 (by omega)
    rw [hheader, ok_bind, unwrap_slice cat 30 2 (by omega), ok_bind]
    split
    · exact ⟨none, rfl⟩
    · rw [hplatform, ok_bind]
      split
      · rw [unwrap_slice cat 32 32 (by omega), ok_bind]
        exact parseEntry_ok
      · exact sectionsFrom_ok

theorem parseEntry_lt {e : List UInt8} {image : UefiImage} (h : parseEntry e = .ok (some image)) :
    image.lba < 2 ^ 32 := by
  unfold parseEntry at h
  split at h
  · cases h
  obtain ⟨indicator, -, h⟩ := bind_eq_ok.mp h
  split at h
  · cases h
  obtain ⟨sectors, -, h⟩ := bind_eq_ok.mp h
  obtain ⟨lba, hlba, h⟩ := bind_eq_ok.mp h
  obtain rfl := Option.some.inj (Except.ok.inj h)
  have hlt := leNat_lt lba
  rwa [slice_length (unwrap_eq_ok.mp hlba)] at hlt

theorem sectionEntries_lt {cat : List UInt8} {count off stop : ℕ} {image : UefiImage}
    (h : sectionEntries cat count off = .ok (some image, stop)) : image.lba < 2 ^ 32 := by
  induction count generalizing off with
  | zero => cases h
  | succ count ih =>
    rw [sectionEntries] at h
    split at h
    · cases h
    obtain ⟨e, -, h⟩ := bind_eq_ok.mp h
    obtain ⟨found, hfound, h⟩ := bind_eq_ok.mp h
    cases found with
    | some found =>
      obtain ⟨himage, -⟩ := Prod.mk.inj (Except.ok.inj h)
      obtain rfl := Option.some.inj himage
      exact parseEntry_lt hfound
    | none => exact ih h

theorem sectionsFrom_lt {cat : List UInt8} {off : ℕ} {image : UefiImage}
    (h : sectionsFrom cat off = .ok (some image)) : image.lba < 2 ^ 32 := by
  fun_induction sectionsFrom cat off with
  | case1 off hoff ih =>
    obtain ⟨hdr, -, h⟩ := bind_eq_ok.mp h
    obtain ⟨indicator, -, h⟩ := bind_eq_ok.mp h
    split at h
    · cases h
    obtain ⟨platform, -, h⟩ := bind_eq_ok.mp h
    obtain ⟨count, -, h⟩ := bind_eq_ok.mp h
    split at h
    · cases h
    · rename_i found stop himage
      obtain rfl := Option.some.inj (Except.ok.inj h)
      unfold sectionImage at himage
      split at himage
      · exact sectionEntries_lt himage
      · cases himage
    · rename_i next hnext
      split at h
      · cases h
      · exact ih platform count next hnext h
  | case2 off hoff => cases h

theorem parseCatalog_lt {cat : List UInt8} {image : UefiImage}
    (h : parseCatalog cat = .ok (some image)) : image.lba < 2 ^ 32 := by
  unfold parseCatalog at h
  split at h
  · cases h
  obtain ⟨header, -, h⟩ := bind_eq_ok.mp h
  obtain ⟨key, -, h⟩ := bind_eq_ok.mp h
  split at h
  · cases h
  obtain ⟨platform, -, h⟩ := bind_eq_ok.mp h
  split at h
  · obtain ⟨e, -, h⟩ := bind_eq_ok.mp h
    exact parseEntry_lt h
  · exact sectionsFrom_lt h

end ElTorito

namespace Iso9660

theorem offset_lt {lba bs : ℕ} (hlba : lba < 2 ^ 32) (hbs : bs < 2 ^ 16) : lba * bs < 2 ^ 48 := by
  have hmul : lba * bs ≤ (2 ^ 32 - 1) * (2 ^ 16 - 1) := Nat.mul_le_mul (by omega) (by omega)
  omega

theorem u64_offset {lba bs : ℕ} (hlba : lba < 2 ^ 32) (hbs : bs < 2 ^ 16) :
    u64 (lba * bs) = .ok (lba * bs) :=
  fits_eq_ok.mpr ⟨Nat.lt_trans (offset_lt hlba hbs) (by decide), rfl⟩

theorem answered_readDirExtent {src : Source} {blockSize : ℕ} {inode : Inode}
    (hbs : blockSize < 2 ^ 16) (hinode : inode.Bounded) :
    Answered (readDirExtent src blockSize inode) := by
  refine Answered.bind (answered_checkedLen ..) fun len _ => ?_
  rw [u64_offset hinode.lba_lt hbs, lift_ok_bind]
  exact answered_readAt ..

theorem answered_fileName {vol : Volume} {fi : List UInt8} {isDir : Bool} :
    Answered (fileName vol fi isDir) := by
  refine Answered.ite (fun _ => ?_) fun _ => ?_
  · exact Answered.bind (answered_okOr ..) fun _ _ => trivial
  · exact Answered.bind (answered_okOr ..) fun _ _ => trivial

section Records

variable {vol : Volume} (hvol : vol.Bounded)

include hvol

theorem answered_readContinuation {ce : Continuation} (hce : ce.Bounded) :
    Answered (readContinuation vol ce) := by
  have hlt := offset_lt hce.block_lt hvol.blockSize_lt
  have hoffset := hce.offset_lt
  have hlen := hce.len_lt
  unfold readContinuation
  rw [u64_offset hce.block_lt hvol.blockSize_lt, lift_ok_bind]
  refine Answered.bind (answered_fits.mpr (by omega)) fun at_ hat => ?_
  obtain ⟨-, rfl⟩ := fits_eq_ok.mp hat
  refine Answered.bind (answered_fits.mpr (by omega)) fun stop _ => ?_
  exact Answered.ite (fun _ => trivial) fun _ => answered_readAt ..

theorem answered_parseContinuations {parser : RrParser} {next : Option Continuation} {left : ℕ}
    (hparser : parser.info.Bounded) (hnext : ∀ ce, next = some ce → ce.Bounded) :
    Answered (parseContinuations vol parser next left) := by
  induction left generalizing parser next with
  | zero =>
    cases next with
    | none => trivial
    | some ce => trivial
  | succ left ih =>
    cases next with
    | none => trivial
    | some ce =>
      refine Answered.ite (fun _ => trivial) fun _ => ?_
      refine (answered_readContinuation hvol (hnext ce rfl)).bind fun area _ => ?_
      obtain ⟨next', hfeed⟩ := feed_ok area
      obtain ⟨parser', hparser'⟩ := hfeed parser
      obtain ⟨hbounded, hnext'⟩ := feed_bounded hparser hparser'
      rw [hparser', lift_ok_bind]
      exact ih hbounded hnext'

theorem answered_parseRockRidge {su : List UInt8} : Answered (parseRockRidge vol su) := by
  obtain ⟨next, hfeed⟩ := feed_ok su
  obtain ⟨parser, hparser⟩ := hfeed .default
  obtain ⟨hbounded, hnext⟩ := feed_bounded default_bounded hparser
  unfold parseRockRidge
  rw [hparser, lift_ok_bind]
  exact (answered_parseContinuations hvol hbounded hnext).bind fun _ _ => trivial

theorem answered_newEntry {dirLba pos lba size : ℕ} {record fi : List UInt8} {isDir : Bool} :
    Answered (newEntry vol dirLba pos record fi isDir lba size) := by
  refine answered_fileName.bind fun name _ => ?_
  refine Answered.bind ?_ fun _ _ => trivial
  exact Answered.ite (fun _ => answered_parseRockRidge hvol) fun _ => trivial

omit hvol in
theorem answered_recordAt {buf : List UInt8} {pos len : ℕ} :
    Answered (recordAt buf pos len) := by
  refine Answered.bind (answered_okOr ..) fun record _ => ?_
  refine Answered.bind (answered_okOr ..) fun fiLen _ => ?_
  exact Answered.bind (answered_okOr ..) fun _ _ => trivial

omit hvol in
theorem answered_addExtent {buf fi : List UInt8} {isDir : Bool} {lba size : ℕ} {inode : Inode}
    (hinode : inode.Bounded) (hsize : size < 2 ^ 32) :
    Answered (addExtent buf fi isDir lba size inode) := by
  have hlt := hinode.size_lt
  refine Answered.ite (fun _ => trivial) fun _ => ?_
  refine Answered.bind ?_ fun first _ => ?_
  · refine Answered.bind (answered_okOr ..) fun len _ => ?_
    exact answered_recordAt.bind fun _ _ => trivial
  refine Answered.ite (fun _ => trivial) fun _ => ?_
  refine Answered.ite (fun _ => trivial) fun _ => ?_
  exact Answered.bind (answered_fits.mpr (by omega)) fun _ _ => trivial

theorem answered_readRecord {dirLba pos : ℕ} {buf record fi : List UInt8}
    {pending : Option (Str × Inode)} (hpending : ∀ first, pending = some first → first.2.Bounded) :
    Answered (readRecord vol dirLba buf pos record fi pending) := by
  refine Answered.ite (fun _ => trivial) fun _ => ?_
  refine Answered.bind (answered_okOr ..) fun flags _ => ?_
  refine (answered_leAt ..).bind fun lba _ => ?_
  refine (answered_leAt ..).bind fun size hsize => ?_
  cases pending with
  | some first =>
    refine Answered.bind ?_ fun _ _ => trivial
    exact answered_addExtent (hpending first rfl) (leAt_lt hsize)
  | none => exact (answered_newEntry hvol).bind fun _ _ => trivial

theorem answered_entriesFrom {dirLba pos : ℕ} {buf : List UInt8} {pending : Option (Str × Inode)}
    (hpending : ∀ first, pending = some first → first.2.Bounded) :
    Answered (entriesFrom vol dirLba buf pending pos) := by
  have hfinish : ∀ pending, Answered (finishScan pending) :=
    fun _ => Answered.ite (fun _ => trivial) fun _ => trivial
  fun_induction entriesFrom vol dirLba buf pending pos with
  | case1 pending pos hpos ihPadding ihRecord =>
    refine (answered_getElem hpos).bind fun len _ => ?_
    split
    · exact Answered.ite (fun _ => hfinish _) fun hnext => ihPadding hnext hpending
    · rename_i hzero
      refine answered_recordAt.bind fun found _ => ?_
      refine (answered_readRecord hvol hpending).bind fun step hstep => ?_
      have hpending' := (readRecord_bounded hpending hstep).2
      exact (ihRecord len hzero step.2 hpending').bind fun _ _ => trivial
  | case2 pending pos hpos => exact hfinish _

theorem answered_forEachEntry {dir : Inode} (hdir : dir.Bounded) :
    Answered (forEachEntry vol dir) := by
  refine (answered_readDirExtent hvol.blockSize_lt hdir).bind fun buf _ => ?_
  exact answered_entriesFrom hvol (by simp)

end Records

/-- Where the scan goes on after the bytes at index `pos`. -/
def nextRecord (blockSize : ℕ) (buf : List UInt8) (pos : ℕ) : ℕ :=
  match buf[pos]? with
  | some len => if len.toNat = 0 then (pos / blockSize + 1) * blockSize else pos + len.toNat
  | none => pos

/-- What the scan does at index `pos`: nothing at padding. -/
def scanStep (vol : Volume) (dirLba : ℕ) (buf : List UInt8) (pending : Option (Str × Inode))
    (pos : ℕ) : Outcome (List (Str × Inode) × Option (Str × Inode)) := do
  let len ← unwrap buf[pos]?
  if len.toNat = 0 then return ([], pending)
  else do
    let (record, fi) ← recordAt buf pos len.toNat
    readRecord vol dirLba buf pos record fi pending

theorem padding_gt (vol : Volume) (pos : ℕ) : pos < (pos / vol.blockSize + 1) * vol.blockSize := by
  have hdiv := Nat.div_add_mod pos vol.blockSize
  have hmod := Nat.mod_lt pos vol.blockSize_pos
  rw [Nat.succ_mul, Nat.mul_comm]
  omega

theorem nextRecord_gt (vol : Volume) {buf : List UInt8} {pos : ℕ} (hpos : pos < buf.length) :
    pos < nextRecord vol.blockSize buf pos := by
  unfold nextRecord
  rw [List.getElem?_eq_getElem hpos]
  dsimp only
  split
  · exact padding_gt vol pos
  · omega

/-- Inside the extent the scan takes one step and goes on at a greater index. -/
theorem entriesFrom_step (vol : Volume) (dirLba : ℕ) {buf : List UInt8}
    (pending : Option (Str × Inode)) {pos : ℕ} (hpos : pos < buf.length) :
    entriesFrom vol dirLba buf pending pos = (do
      let (done, pending) ← scanStep vol dirLba buf pending pos
      let rest ← entriesFrom vol dirLba buf pending (nextRecord vol.blockSize buf pos)
      return done ++ rest) := by
  have hget : unwrap buf[pos]? = .ok buf[pos] := unwrap_eq_ok.mpr (List.getElem?_eq_getElem hpos)
  unfold scanStep nextRecord
  rw [entriesFrom, if_pos hpos, hget, ok_bind, lift_ok_bind, List.getElem?_eq_getElem hpos]
  dsimp only
  split
  · rw [if_neg (Nat.not_le.mpr (padding_gt vol pos))]
    have hnil : ∀ x : Outcome (List (Str × Inode)), x = x >>= fun rest => .ok ([] ++ rest) := by
      intro x
      cases x with
      | error fault => rfl
      | ok rest => rfl
    exact hnil _
  · rw [bind_assoc]
    rfl

/-- The entries of an area go on in another one. -/
def GoesOnIn (vol : Volume) (area area' : List UInt8) : Prop :=
  ∃ parser ce, RrParser.default.feed area = .ok (parser, some ce) ∧
    readContinuation vol ce = .ok area'

theorem goesOnIn_rightUnique (vol : Volume) : Relator.RightUnique (GoesOnIn vol) := by
  intro area b c hb hc
  obtain ⟨parser, ce, hfeed, hb⟩ := hb
  obtain ⟨parser', ce', hfeed', hc⟩ := hc
  rw [hfeed] at hfeed'
  obtain ⟨-, hce⟩ := Prod.mk.inj (Except.ok.inj hfeed')
  obtain rfl := Option.some.inj hce
  rw [hb] at hc
  exact Except.ok.inj hc

theorem goesOnIn_of_feed {vol : Volume} {area area' : List UInt8} {parser parser' : RrParser}
    {ce : Continuation} (hfeed : parser.feed area = .ok (parser', some ce))
    (hread : readContinuation vol ce = .ok area') : GoesOnIn vol area area' := by
  obtain ⟨next, hnext⟩ := feed_ok area
  obtain ⟨last, hlast⟩ := hnext parser
  obtain ⟨first, hfirst⟩ := hnext .default
  rw [hfeed] at hlast
  obtain ⟨-, rfl⟩ := Prod.mk.inj (Except.ok.inj hlast)
  exact ⟨first, ce, hfirst, hread⟩

theorem not_goesOnIn_of_feed {vol : Volume} {area area' : List UInt8} {parser parser' : RrParser}
    (hfeed : parser.feed area = .ok (parser', none)) : ¬GoesOnIn vol area area' := by
  intro h
  obtain ⟨first, ce, hfirst, -⟩ := h
  obtain ⟨next, hnext⟩ := feed_ok area
  obtain ⟨last, hlast⟩ := hnext parser
  obtain ⟨first', hfirst'⟩ := hnext .default
  rw [hfeed] at hlast
  obtain ⟨-, rfl⟩ := Prod.mk.inj (Except.ok.inj hlast)
  rw [hfirst] at hfirst'
  cases (Prod.mk.inj (Except.ok.inj hfirst')).2

/-- Areas that were all read are the whole of a chain that ends. -/
theorem parseContinuations_ends {vol : Volume} {area : List UInt8} {parser parser' last : RrParser}
    {next : Option Continuation} {left : ℕ} (hfeed : parser.feed area = .ok (parser', next))
    (h : parseContinuations vol parser' next left = .ok last) :
    ∃ n ≤ left, Chains.EndsIn (GoesOnIn vol) area n := by
  induction left generalizing area parser parser' next with
  | zero =>
    cases next with
    | none => exact ⟨0, le_rfl, .last fun _ => not_goesOnIn_of_feed hfeed⟩
    | some ce => exact absurd h (fail_ne_ok _ _)
  | succ left ih =>
    cases next with
    | none => exact ⟨0, Nat.zero_le _, .last fun _ => not_goesOnIn_of_feed hfeed⟩
    | some ce =>
      obtain ⟨-, h⟩ := ite_error_eq_ok.mp h
      obtain ⟨area', harea, h⟩ := bind_eq_ok.mp h
      obtain ⟨⟨parser₁, next₁⟩, hfeed', h⟩ := bind_eq_ok.mp h
      obtain ⟨n, hn, hends⟩ := ih hfeed' h
      exact ⟨n + 1, Nat.succ_le_succ hn, .next (goesOnIn_of_feed hfeed harea) hends⟩

/-- A chain of areas that leads to a cycle is refused. -/
theorem parseRockRidge_cyclic {vol : Volume} (hvol : vol.Bounded) {su area : List UInt8}
    (hlead : Relation.ReflTransGen (GoesOnIn vol) su area)
    (hcycle : Relation.TransGen (GoesOnIn vol) area area) :
    ∃ e, parseRockRidge vol su = fail e := by
  have hans : Answered (parseRockRidge vol su) := answered_parseRockRidge hvol
  cases h : parseRockRidge vol su with
  | error fault =>
    rw [h] at hans
    cases fault with
    | err e => exact ⟨e, rfl⟩
    | panic => exact hans.elim
    | hang => exact hans.elim
  | ok info =>
    obtain ⟨⟨parser, next⟩, hfeed, h⟩ := bind_eq_ok.mp h
    obtain ⟨last, hlast, -⟩ := bind_eq_ok.mp h
    obtain ⟨n, -, hends⟩ := parseContinuations_ends hfeed hlast
    exact absurd hcycle (hends.not_cyclic (goesOnIn_rightUnique vol) hlead)

section Files

variable {ρ : Type} {codecs : Codecs ρ} {vol : Volume}

theorem blockPtr_ok {head : List UInt8} {i : ℕ} (h : 16 + i * 4 + 4 ≤ head.length) :
    ∃ v < 2 ^ 32, blockPtr head i = .ok v := by
  have hslice := unwrap_slice head (16 + i * 4) 4 h
  have hlt := leNat_lt ((head.drop (16 + i * 4)).take 4)
  rw [slice_length (unwrap_eq_ok.mp hslice)] at hlt
  exact ⟨_, hlt, bind_eq_ok.mpr ⟨_, hslice, rfl⟩⟩

theorem answered_zisofsBlock {extentOff cstart cend uncompressed : ℕ} (hext : extentOff < 2 ^ 48)
    (hcstart : cstart < 2 ^ 32) :
    Answered (zisofsBlock codecs vol extentOff cstart cend uncompressed) := by
  refine Answered.ite (fun _ => trivial) fun _ => ?_
  refine Answered.bind (answered_checkedLen ..) fun clen _ => ?_
  refine Answered.bind (answered_fits.mpr (by omega)) fun at_ _ => ?_
  exact Answered.bind (answered_readAt ..) fun _ _ => answered_decode

/-- The table has a pointer for each block of the file and one more. -/
theorem answered_zisofsFrom {head : List UInt8} {extentOff blockSize size stop cur : ℕ}
    {out : List UInt8} (hext : extentOff < 2 ^ 48) (hbs : 0 < blockSize) (hsize : size < 2 ^ 32)
    (hhead : head.length = 16 + (divCeil size blockSize + 1) * 4) (hstop : stop ≤ size) :
    Answered (zisofsFrom codecs vol head extentOff blockSize size stop cur out) := by
  fun_induction zisofsFrom codecs vol head extentOff blockSize size stop cur out with
  | case1 cur out hcur blk ih =>
    have hbase : blk * blockSize ≤ cur := Nat.div_mul_le_self cur blockSize
    have hblk : blk < divCeil size blockSize := (lt_divCeil_iff hbs).mpr (by omega)
    refine Answered.bind (answered_fits.mpr (by omega)) fun base hbase' => ?_
    obtain ⟨-, rfl⟩ := fits_eq_ok.mp hbase'
    refine Answered.bind (answered_minus.mpr (by omega)) fun left _ => ?_
    obtain ⟨cstart, hcstart, hptr⟩ := @blockPtr_ok head blk (by omega)
    obtain ⟨cend, -, hptr'⟩ := @blockPtr_ok head (blk + 1) (by omega)
    rw [hptr, lift_ok_bind, hptr', lift_ok_bind]
    refine (answered_zisofsBlock hext hcstart).bind fun block _ => ?_
    refine Answered.bind (answered_minus.mpr hbase) fun inBlk _ => ?_
    refine Answered.ite (fun _ => trivial) fun htake => ?_
    refine (answered_slice (by omega)).bind fun bytes _ => ?_
    exact ih block inBlk htake bytes
  | case2 cur out hcur => trivial

/-- No sum on the way to the table of pointers leaves 64 bits. -/
theorem readZisofs_eq (hvol : vol.Bounded) {inode : Inode} (hinode : inode.Bounded)
    {zi : Zisofs} (hzi : inode.zisofs = some zi) {off : ℕ} {buf : List UInt8}
    (hoff : ¬off ≥ zi.uncompressedSize) (hlog2 : ¬zi.blockSizeLog2 ≥ 31) :
    readZisofs codecs vol inode zi off buf = (do
      let headLen ← checkedFullReadLen
        (16 + (divCeil zi.uncompressedSize (1 <<< zi.blockSizeLog2) + 1) * 4)
      let head ← vol.src.readAt (inode.lba * vol.blockSize) headLen
      let magic ← unwrap (slice head 0 8)
      if magic ≠ zisofsMagic then fail (.corrupt "zisofs: bad magic")
      else do
        let data ← zisofsFrom codecs vol head (inode.lba * vol.blockSize)
          (1 <<< zi.blockSizeLog2) zi.uncompressedSize
          (off + min buf.length (zi.uncompressedSize - off)) off []
        return (data.length, overwrite buf 0 data)) := by
  have hsize := hinode.zisofs_lt zi hzi
  have hbs : 1 <<< zi.blockSizeLog2 < 2 ^ 31 := by
    rw [Nat.one_shiftLeft]
    exact Nat.pow_lt_pow_right (by decide) (by omega)
  have hcount : divCeil zi.uncompressedSize (1 <<< zi.blockSizeLog2) < 2 ^ 33 := by
    have hdiv := Nat.div_le_self (zi.uncompressedSize + 1 <<< zi.blockSizeLog2 - 1)
      (1 <<< zi.blockSizeLog2)
    unfold divCeil
    omega
  have hentries : u64 (divCeil zi.uncompressedSize (1 <<< zi.blockSizeLog2) + 1) =
      .ok (divCeil zi.uncompressedSize (1 <<< zi.blockSizeLog2) + 1) :=
    fits_eq_ok.mpr ⟨by omega, rfl⟩
  have htable : checkedU64 ((divCeil zi.uncompressedSize (1 <<< zi.blockSizeLog2) + 1) * 4) =
      some ((divCeil zi.uncompressedSize (1 <<< zi.blockSizeLog2) + 1) * 4) := by
    unfold checkedU64
    rw [if_pos (by omega)]
  have htotal : u64 (16 + (divCeil zi.uncompressedSize (1 <<< zi.blockSizeLog2) + 1) * 4) =
      .ok (16 + (divCeil zi.uncompressedSize (1 <<< zi.blockSizeLog2) + 1) * 4) :=
    fits_eq_ok.mpr ⟨by omega, rfl⟩
  unfold readZisofs
  rw [if_neg hoff, if_neg hlog2]
  dsimp only
  rw [hentries, lift_ok_bind, htable, okOr, lift_ok_bind, htotal, lift_ok_bind,
    u64_offset hinode.lba_lt hvol.blockSize_lt]
  rfl

theorem answered_readZisofs (hvol : vol.Bounded) {inode : Inode} (hinode : inode.Bounded)
    {zi : Zisofs} (hzi : inode.zisofs = some zi) {off : ℕ} {buf : List UInt8} :
    Answered (readZisofs codecs vol inode zi off buf) := by
  by_cases hoff : off ≥ zi.uncompressedSize
  · unfold readZisofs
    rw [if_pos hoff]
    trivial
  by_cases hlog2 : zi.blockSizeLog2 ≥ 31
  · unfold readZisofs
    rw [if_neg hoff, if_pos hlog2]
    trivial
  rw [readZisofs_eq hvol hinode hzi hoff hlog2]
  have hsize := hinode.zisofs_lt zi hzi
  have hbs : 0 < 1 <<< zi.blockSizeLog2 := by
    rw [Nat.one_shiftLeft]
    exact Nat.two_pow_pos _
  refine Answered.bind (answered_checkedLen ..) fun headLen hheadLen => ?_
  obtain ⟨-, rfl⟩ := checkedFullReadLen_eq_ok.mp hheadLen
  refine Answered.bind (answered_readAt ..) fun head hhead => ?_
  have hlen := Source.readAt_length hhead
  refine (answered_slice (by omega)).bind fun magic _ => ?_
  refine Answered.ite (fun _ => trivial) fun _ => ?_
  have hdata : Answered (zisofsFrom codecs vol head (inode.lba * vol.blockSize)
      (1 <<< zi.blockSizeLog2) zi.uncompressedSize
      (off + min buf.length (zi.uncompressedSize - off)) off []) :=
    answered_zisofsFrom (offset_lt hinode.lba_lt hvol.blockSize_lt) hbs hsize hlen (by omega)
  exact hdata.bind fun _ _ => trivial

theorem answered_readPlain (hvol : vol.Bounded) {inode : Inode} (hinode : inode.Bounded)
    {off : ℕ} {buf : List UInt8} : Answered (readPlain vol inode off buf) := by
  have hsize := hinode.size_lt
  have htotal := hinode.size_eq
  refine Answered.ite (fun _ => trivial) fun hoff => ?_
  refine Answered.bind (answered_readExtents ?_ ?_ (by omega) (by omega) (.inl (by simp)))
    fun _ _ => trivial
  · intro e intra n bytes h
    obtain ⟨start, -, h⟩ := bind_eq_ok.mp h
    obtain ⟨at_, -, h⟩ := bind_eq_ok.mp h
    exact Source.readAt_length h
  · intro e he intra n hn
    obtain ⟨hlba, hlen⟩ := hinode.extents_lt e he
    have hlt := offset_lt hlba hvol.blockSize_lt
    rw [u64_offset hlba hvol.blockSize_lt, lift_ok_bind]
    exact Answered.bind (answered_fits.mpr (by omega)) fun _ _ => answered_readAt ..

end Files

theorem answered_rootRecord {vd : List UInt8} : Answered (rootRecord vd) := by
  refine Answered.bind (answered_okOr ..) fun rdr _ => ?_
  refine (answered_leAt ..).bind fun lba _ => ?_
  exact (answered_leAt ..).bind fun _ _ => trivial

theorem answered_readVd {vd : List UInt8} {type : UInt8} {found : Vds} (hvd : 91 ≤ vd.length) :
    Answered (readVd vd type found) := by
  refine Answered.ite (fun _ => ?_) fun _ => ?_
  · refine Answered.bind ?_ fun _ _ => trivial
    refine (answered_leAt ..).bind fun blockSize _ => ?_
    split
    · trivial
    · exact answered_rootRecord.bind fun _ _ => trivial
  refine Answered.ite (fun _ => ?_) fun _ => ?_
  · exact Answered.ite (fun _ => (answered_leAt ..).bind fun _ _ => trivial) fun _ => trivial
  refine Answered.ite (fun _ => ?_) fun _ => trivial
  refine Answered.bind (answered_slice hvd) fun esc _ => ?_
  exact Answered.ite (fun _ => answered_rootRecord.bind fun _ _ => trivial) fun _ => trivial

theorem answered_scanVds {src : Source} {count i : ℕ} {found : Vds} (hi : i + count ≤ maxVdScan) :
    Answered (scanVds src count i found) := by
  induction count generalizing i found with
  | zero => trivial
  | succ count ih =>
    have hoff : vdRegionOffset + i * vdSize + vdSize < 2 ^ 64 := by
      unfold maxVdScan at hi
      unfold vdRegionOffset vdSize
      omega
    have hsize : 91 ≤ vdSize := by decide
    rw [scanVds]
    -- as a literal, the size would be counted down in unary
    generalize vdSize = size at *
    refine Answered.bind (answered_fits.mpr (by omega)) fun off hoff' => ?_
    obtain ⟨-, rfl⟩ := fits_eq_ok.mp hoff'
    refine Answered.bind (answered_fits.mpr hoff) fun stop _ => ?_
    refine Answered.ite (fun _ => trivial) fun _ => ?_
    refine Answered.bind (answered_readAt ..) fun vd hvd => ?_
    have hlen := Source.readAt_length hvd
    refine (answered_slice (by omega)).bind fun id _ => ?_
    refine Answered.ite (fun _ => trivial) fun _ => ?_
    refine (answered_getElem (by omega)).bind fun type _ => ?_
    refine Answered.ite (fun _ => trivial) fun _ => ?_
    exact (answered_readVd (by omega)).bind fun _ _ => ih (by omega)

theorem answered_detectSusp {src : Source} {blockSize : ℕ} {root : Inode}
    (hbs : blockSize < 2 ^ 16) (hroot : root.Bounded) :
    Answered (detectSusp src blockSize root) := by
  refine (answered_readDirExtent hbs hroot).bind fun buf _ => ?_
  cases buf with
  | nil => trivial
  | cons len rest =>
    refine Answered.bind (answered_okOr ..) fun record _ => ?_
    refine Answered.bind (answered_okOr ..) fun fiLen _ => ?_
    exact answered_detectSp

theorem answered_mount (src : Source) : Answered (mount src) := by
  refine Answered.bind ?_ fun _ _ => trivial
  refine Answered.bind (answered_scanVds (by decide)) fun found hfound => ?_
  have hbounded := scanVds_keeps readVd_bounded noVds_bounded hfound
  refine Answered.bind (answered_okOr ..) fun primary hprimary => ?_
  obtain ⟨hbs, hroot⟩ := hbounded.primary primary (okOr_eq_ok.mp hprimary)
  refine (answered_detectSusp hbs hroot).bind fun susp _ => ?_
  split
  · trivial
  · trivial
  · trivial

theorem answered_uefiImage {vol : Volume} (hvol : vol.Bounded) : Answered (uefiImage vol) := by
  unfold uefiImage
  cases hcat : vol.elToritoCatalogLba with
  | none => trivial
  | some catLba =>
    have hlba := hvol.catalog_lt catLba hcat
    have hlt := offset_lt hlba hvol.blockSize_lt
    dsimp only
    rw [u64_offset hlba hvol.blockSize_lt, lift_ok_bind]
    have hsum : catLba * vol.blockSize + vdSize < 2 ^ 64 := by
      unfold vdSize
      omega
    generalize vdSize = size at *
    refine Answered.bind (answered_fits.mpr hsum) fun stop _ => ?_
    refine Answered.ite (fun _ => trivial) fun _ => ?_
    refine Answered.bind (answered_readAt ..) fun cat _ => ?_
    obtain ⟨found, hfound⟩ := @ElTorito.parseCatalog_ok cat
    refine (answered_of_eq_ok hfound).bind fun image himage => ?_
    cases image with
    | none => trivial
    | some image =>
      have hlba := ElTorito.parseCatalog_lt himage
      have hlt := offset_lt hlba hvol.blockSize_lt
      refine Answered.ite (fun _ => ?_) fun _ => trivial
      rw [u64_offset hlba hvol.blockSize_lt, lift_ok_bind]
      have hsum : image.lba * vol.blockSize + 512 < 2 ^ 64 := by omega
      generalize 512 = size at *
      refine Answered.bind (answered_fits.mpr hsum) fun stop _ => ?_
      refine Answered.ite (fun _ => ?_) fun _ => trivial
      exact Answered.bind (answered_readAt ..) fun _ _ => trivial

section Calls

variable {ρ : Type} {zisofs : Bool} {codecs : Codecs ρ} {vol : Volume}

theorem answered_inode_bind {α : Type} {iso : Iso9660} {node : NodeId}
    {f : Inode → Method Iso9660 α} :
    Answered (exec (Iso9660.inode node >>= f) iso).1 ↔
      ∀ inode, iso.table.inode node = .ok inode → Answered (exec (f inode) iso).1 :=
  answered_exec_reading_bind (answered_okOr ..)

theorem answered_dirEntries {iso : Iso9660} (hvol : iso.vol.Bounded)
    (hiso : iso.table.All Inode.Bounded) (dir : NodeId) :
    Answered (exec (dirEntries dir) iso).1 := by
  refine answered_inode_bind.mpr ?_
  intro dirInode hfound
  refine answered_exec_ite.mpr ⟨fun _ => trivial, fun _ => ?_⟩
  exact answered_forEachEntry hvol (hiso.inode hfound)

theorem answered_call {iso : Iso9660} (hvol : iso.vol.Bounded)
    (hiso : iso.table.All Inode.Bounded) (call : Call) :
    (frontend zisofs codecs).Answers call iso := by
  cases call with
  | lookup dir name =>
    refine answered_exec_bind.mpr ⟨answered_dirEntries hvol hiso dir, ?_⟩
    intro entries t _
    cases entries.find? fun entry => entry.1 = name with
    | none => trivial
    | some entry => trivial
  | readDir dir =>
    refine answered_exec_bind.mpr ⟨answered_dirEntries hvol hiso dir, ?_⟩
    intro entries t _
    exact (InternTable.answered_internAll t.table).mpr (InternTable.parsesAnswered_ok entries)
  | metadata node =>
    refine answered_inode_bind.mpr ?_
    intro inode _
    trivial
  | readAt node off buf =>
    refine answered_inode_bind.mpr ?_
    intro inode hfound
    have hinode := hiso.inode hfound
    refine answered_exec_ite.mpr ⟨fun _ => trivial, fun _ => ?_⟩
    rw [exec_bind, exec_get]
    cases hzi : inode.zisofs with
    | some zi =>
      refine answered_exec_ite.mpr ⟨fun _ => ?_, fun _ => trivial⟩
      exact answered_readZisofs hvol hinode hzi
    | none => exact answered_readPlain hvol hinode
  | readLink node =>
    refine answered_inode_bind.mpr ?_
    intro inode _
    trivial

end Calls

/-- Every source is opened or refused, and every call in every state a mounted volume
can reach is answered. In every directory the scan advances, and a chain of
continuation areas that leads to a cycle is refused. -/
theorem answers_all {ρ : Type} (zisofs : Bool) (codecs : Codecs ρ) (src : Source) :
    Answered (mount src) ∧
      ∀ iso t, mount src = .ok iso → Reaches (fun _ : Unit => frontend zisofs codecs) iso t →
        (∀ call, (frontend zisofs codecs).Answers call t) ∧
        Answered (exec elToritoUefiImage t).1 ∧ (exec elToritoUefiImage t).2 = t ∧
        (∀ dirLba (buf : List UInt8) pending pos, pos < buf.length →
          pos < nextRecord t.vol.blockSize buf pos ∧
          entriesFrom t.vol dirLba buf pending pos = (do
            let (done, pending) ← scanStep t.vol dirLba buf pending pos
            let rest ← entriesFrom t.vol dirLba buf pending (nextRecord t.vol.blockSize buf pos)
            return done ++ rest)) ∧
        ∀ su area, Relation.ReflTransGen (GoesOnIn t.vol) su area →
          Relation.TransGen (GoesOnIn t.vol) area area →
            ∃ e, parseRockRidge t.vol su = fail e := by
  refine ⟨answered_mount src, ?_⟩
  intro iso t hmount hrun
  obtain ⟨hopened, -, hvol⟩ := mount_opened hmount
  have ht := hrun.keeps (fun _ => frontend_keeps_opened iso.vol) hopened
  rw [← ht.vol_eq] at hvol
  refine ⟨answered_call hvol ht.nodes, answered_uefiImage hvol, rfl, ?_, ?_⟩
  · intro dirLba buf pending pos hpos
    exact ⟨nextRecord_gt t.vol hpos, entriesFrom_step t.vol dirLba pending hpos⟩
  · intro su area hlead hcycle
    exact parseRockRidge_cyclic hvol hlead hcycle

/-- A primary descriptor in the first place is taken in, and the next one read. -/
theorem scanVds_primary {src : Source} {vd : List UInt8} {primary : PrimaryVd}
    (hlen : vdRegionOffset + vdSize ≤ src.len) (hread : src.readAt vdRegionOffset vdSize = .ok vd)
    (hid : slice vd 1 5 = some standardId) (htype : vd[0]? = some vdTypePrimary)
    (hprimary : primaryVd vd = .ok primary) :
    scanVds src maxVdScan 0 ⟨none, none, none⟩ = scanVds src 63 1 ⟨some primary, none, none⟩ := by
  have hfirst : u64 (vdRegionOffset + 0 * vdSize) = .ok vdRegionOffset := by decide +kernel
  have hstop : u64 (vdRegionOffset + vdSize) = .ok (vdRegionOffset + vdSize) := by decide +kernel
  have hvd : readVd vd vdTypePrimary ⟨none, none, none⟩ = .ok ⟨some primary, none, none⟩ := by
    rw [readVd, if_pos rfl, hprimary]
    rfl
  have hcount : maxVdScan = 63 + 1 := rfl
  rw [hcount, scanVds, hfirst, lift_ok_bind, hstop, lift_ok_bind, if_neg (Nat.not_lt.mpr hlen),
    hread, ok_bind, hid, unwrap, lift_ok_bind, if_neg (not_not.mpr rfl), htype, unwrap,
    lift_ok_bind, if_neg (by decide), hvd, lift_ok_bind]

/-- Where the second descriptor starts. -/
theorem u64_secondVd : u64 (vdRegionOffset + 1 * vdSize) = .ok (vdRegionOffset + vdSize) := by
  decide +kernel

/-- Behind the system area the source has one primary descriptor, and then less than
another. -/
structure OneVd (src : Source) (vd rest : List UInt8) (primary : PrimaryVd) : Prop where
  content_eq : src.content = List.replicate vdRegionOffset 0 ++ (vd ++ rest)
  length_eq : vd.length = vdSize
  rest_lt : rest.length < vdSize
  id_eq : slice vd 1 5 = some standardId
  type_eq : vd[0]? = some vdTypePrimary
  primary_eq : primaryVd vd = .ok primary

/-- The volume with the skip length of the root's `SP` entry, if there is one. -/
def PrimaryVd.volume (primary : PrimaryVd) (src : Source) (susp : Option ℕ) : Volume where
  src := src
  blockSize := primary.blockSize
  blockSize_pos := primary.blockSize_pos
  rockRidge := susp.isSome
  suspSkip := susp.getD 0
  joliet := false
  elToritoCatalogLba := none

section OneVd

variable {src : Source} {vd rest : List UInt8} {primary : PrimaryVd}

theorem OneVd.readAt (h : OneVd src vd rest primary) {k n : ℕ} {bs : List UInt8}
    (hslice : slice (vd ++ rest) k n = some bs) : src.readAt (vdRegionOffset + k) n = .ok bs := by
  rw [Source.readAt_eq_ok, h.content_eq]
  have hfar := slice_append_right (List.replicate vdRegionOffset 0) (vd ++ rest) k n
  rwa [List.length_replicate, hslice] at hfar

theorem OneVd.scanVds_eq (h : OneVd src vd rest primary) :
    scanVds src maxVdScan 0 ⟨none, none, none⟩ = .ok ⟨some primary, none, none⟩ := by
  have hrest := h.rest_lt
  have hlen : src.len = vdRegionOffset + vdSize + rest.length := by
    change src.content.length = _
    rw [h.content_eq]
    simp only [List.length_append, List.length_replicate, h.length_eq]
    omega
  have hslice : slice (vd ++ rest) 0 vdSize = some vd :=
    slice_of_append (@rfl _ ([] ++ vd ++ rest)) rfl h.length_eq.symm
  have hend : u64 (vdRegionOffset + vdSize + vdSize) = .ok (vdRegionOffset + vdSize + vdSize) := by
    decide +kernel
  rw [scanVds_primary (by omega) (h.readAt hslice) h.id_eq h.type_eq h.primary_eq, scanVds,
    u64_secondVd, lift_ok_bind, hend, lift_ok_bind, hlen, if_pos (by omega)]
  rfl

/-- A volume of which only the primary descriptor says something. -/
theorem mount_of_scanVds {susp : Option ℕ}
    (hscan : scanVds src maxVdScan 0 ⟨none, none, none⟩ = .ok ⟨some primary, none, none⟩)
    (hsusp : detectSusp src primary.blockSize primary.root = .ok susp) :
    mount src = .ok ⟨primary.volume src susp,
      (InternTable.empty.intern primary.root.key primary.root).2⟩ := by
  have hopen : openVolume src = .ok (primary.volume src susp, primary.root) := by
    rw [openVolume, hscan, ok_bind, okOr, lift_ok_bind, hsusp, ok_bind]
    cases susp with
    | none => rfl
    | some skip => rfl
  exact bind_eq_ok.mpr ⟨_, hopen, rfl⟩

theorem OneVd.mount_eq (h : OneVd src vd rest primary) {susp : Option ℕ}
    (hsusp : detectSusp src primary.blockSize primary.root = .ok susp) :
    mount src = .ok ⟨primary.volume src susp,
      (InternTable.empty.intern primary.root.key primary.root).2⟩ :=
  mount_of_scanVds h.scanVds_eq hsusp

end OneVd

end Iso9660

end Lamfold
