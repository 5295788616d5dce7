import Lamfold.IsoAnswers

/-!
Boot catalogs, written and read back: a validation entry, the initial entry and sections
of entries, the last of them marked as such. Sections of other platforms are passed over,
and so are those for UEFI without a bootable entry.
-/
namespace Lamfold.ElTorito

open Effects Bytes

/-- An entry of 32 bytes, with the bytes of it that are not read. -/
structure BootEntry where
  indicator : UInt8
  media : List UInt8
  media_len : media.length = 5
  sectors : ℕ
  sectors_lt : sectors < 2 ^ 16
  lba : ℕ
  lba_lt : lba < 2 ^ 32
  criteria : List UInt8
  criteria_len : criteria.length = 20

namespace BootEntry

def encode (e : BootEntry) : List UInt8 :=
  [e.indicator] ++ e.media ++ leBytes 2 e.sectors ++ leBytes 4 e.lba ++ e.criteria

/-- The image of a bootable entry. -/
def image (e : BootEntry) : Option UefiImage :=
  if e.indicator = bootable then some ⟨e.lba, e.sectors⟩ else none

theorem encode_length (e : BootEntry) : e.encode.length = 32 := by
  simp only [encode, List.length_append, leBytes_length, e.media_len, e.criteria_len,
    List.length_cons, List.length_nil]

end BootEntry

/-- The entries for one platform. -/
structure BootSection where
  platform : UInt8
  ident : List UInt8
  ident_len : ident.length = 28
  entries : List BootEntry
  entries_lt : entries.length < 2 ^ 16

namespace BootSection

/-- The header of 32 bytes: 0x91 if the section is the last one, else 0x90. -/
def header (s : BootSection) (last : Bool) : List UInt8 :=
  [if last then 0x91 else 0x90, s.platform] ++ leBytes 2 s.entries.length ++ s.ident

def encode (s : BootSection) (last : Bool) : List UInt8 :=
  s.header last ++ s.entries.flatMap BootEntry.encode

theorem header_length (s : BootSection) (last : Bool) : (s.header last).length = 32 := by
  simp only [header, List.length_append, leBytes_length, s.ident_len, List.length_cons,
    List.length_nil]

end BootSection

/-- Sections one after another, the last of them marked. -/
def encodeSections : List BootSection → List UInt8
  | [] => []
  | s :: rest => s.encode rest.isEmpty ++ encodeSections rest

/-- The first bootable entry of the sections for UEFI. -/
def sectionsImage (sections : List BootSection) : Option UefiImage :=
  ((sections.filter fun s => s.platform = platformUefi).flatMap BootSection.entries).findSome?
    BootEntry.image

/-- A boot catalog, with zeros after it up to the end of its sector. -/
structure Catalog where
  platform : UInt8
  ident : List UInt8
  ident_len : ident.length = 28
  initial : BootEntry
  sections : List BootSection
  padding : ℕ

namespace Catalog

/-- The validation entry of 32 bytes. -/
def validation (c : Catalog) : List UInt8 := [0x01, c.platform] ++ c.ident ++ [0x55, 0xAA]

def encode (c : Catalog) : List UInt8 :=
  c.validation ++ c.initial.encode ++ encodeSections c.sections ++ List.replicate c.padding 0

/-- The initial entry of a catalog for UEFI, else the first bootable one of its sections
for UEFI. -/
def uefiImage (c : Catalog) : Option UefiImage :=
  if c.platform = platformUefi then c.initial.image else sectionsImage c.sections

theorem validation_length (c : Catalog) : c.validation.length = 32 := by
  simp only [validation, List.length_append, c.ident_len, List.length_cons, List.length_nil]

end Catalog

theorem parseEntry_encode (e : BootEntry) : parseEntry e.encode = .ok e.image := by
  have hlen := e.encode_length
  have hfirst : e.encode[0]? = some e.indicator := rfl
  have hsectors : slice e.encode 6 2 = some (leBytes 2 e.sectors) := by
    refine @slice_of_append _ _ ([e.indicator] ++ e.media) (leBytes 2 e.sectors)
      (leBytes 4 e.lba ++ e.criteria) _ _ ?_ ?_ (leBytes_length _ _).symm
    · simp only [BootEntry.encode, List.append_assoc]
    · simp only [List.length_append, e.media_len, List.length_cons, List.length_nil]
  have hlba : slice e.encode 8 4 = some (leBytes 4 e.lba) := by
    refine @slice_of_append _ _ ([e.indicator] ++ e.media ++ leBytes 2 e.sectors) (leBytes 4 e.lba)
      e.criteria _ _ rfl ?_ (leBytes_length _ _).symm
    simp only [List.length_append, leBytes_length, e.media_len, List.length_cons, List.length_nil]
  have hcount : leNat (leBytes 2 e.sectors) = e.sectors := leNat_leBytes e.sectors_lt
  have hblock : leNat (leBytes 4 e.lba) = e.lba := leNat_leBytes e.lba_lt
  unfold parseEntry BootEntry.image
  rw [if_neg (by omega), hfirst, hsectors, hlba]
  simp only [unwrap, ok_bind]
  by_cases hboot : e.indicator = bootable
  · rw [if_neg (not_not.mpr hboot), if_pos hboot, hcount, hblock]
    rfl
  · rw [if_pos hboot, if_neg hboot]
    rfl

/-- The entries of a section are scanned for the first that is bootable; without one, the
scan ends behind them. -/
theorem sectionEntries_encode (entries : List BootEntry) (pre post : List UInt8) :
    ∃ stop, sectionEntries (pre ++ entries.flatMap BootEntry.encode ++ post) entries.length
        pre.length = .ok (entries.findSome? BootEntry.image, stop) ∧
      (entries.findSome? BootEntry.image = none →
        stop = (pre ++ entries.flatMap BootEntry.encode).length) := by
  induction entries generalizing pre with
  | nil => exact ⟨pre.length, rfl, fun _ => by rw [List.flatMap_nil, List.append_nil]⟩
  | cons e entries ih =>
    have hsplit : pre ++ (e :: entries).flatMap BootEntry.encode ++ post =
        pre ++ e.encode ++ (entries.flatMap BootEntry.encode ++ post) := by
      simp only [List.flatMap_cons, List.append_assoc]
    have hslice : slice (pre ++ (e :: entries).flatMap BootEntry.encode ++ post) pre.length 32 =
        some e.encode := slice_of_append hsplit rfl e.encode_length.symm
    have hin := (slice_eq_some.mp hslice).1
    have hstep : sectionEntries (pre ++ (e :: entries).flatMap BootEntry.encode ++ post)
        (entries.length + 1) pre.length =
          e.image.elim (sectionEntries (pre ++ (e :: entries).flatMap BootEntry.encode ++ post)
            entries.length (pre.length + 32)) fun image => .ok (some image, pre.length) := by
      rw [sectionEntries, if_neg (by omega), hslice, unwrap, ok_bind, parseEntry_encode, ok_bind]
      cases e.image with
      | none => rfl
      | some image => rfl
    rw [List.length_cons, hstep]
    cases himage : e.image with
    | some image =>
      have hfound : (e :: entries).findSome? BootEntry.image = some image := by
        rw [List.findSome?_cons_of_isSome (by rw [himage]; rfl), himage]
      rw [hfound]
      refine ⟨pre.length, rfl, ?_⟩
      intro h
      cases h
    | none =>
      have hrest : (e :: entries).findSome? BootEntry.image = entries.findSome? BootEntry.image := by
        rw [List.findSome?_cons_of_isNone (by rw [himage]; rfl)]
      obtain ⟨stop, hscan, hstop⟩ := ih (pre ++ e.encode)
      rw [hrest]
      simp only [List.append_assoc, List.length_append, e.encode_length, List.flatMap_cons]
        at hscan hstop ⊢
      exact ⟨stop, hscan, hstop⟩

theorem sectionsFrom_header {cat pre post : List UInt8} {s : BootSection} {last : Bool}
    {image : Option UefiImage} {next : ℕ} (hcat : cat = pre ++ s.header last ++ post)
    (himage : sectionImage cat s.platform s.entries.length (pre.length + 32) = .ok (image, next)) :
    sectionsFrom cat pre.length =
      image.elim (if last then .ok none else sectionsFrom cat next) fun image => .ok (some image) := by
  have hslice : slice cat pre.length 32 = some (s.header last) :=
    slice_of_append hcat rfl (s.header_length last).symm
  have hin := (slice_eq_some.mp hslice).1
  have hindicator : (s.header last)[0]? = some (if last then 0x91 else 0x90) := rfl
  have hplatform : (s.header last)[1]? = some s.platform := rfl
  have hcount : slice (s.header last) 2 2 = some (leBytes 2 s.entries.length) :=
    @slice_of_append _ _ [if last then 0x91 else 0x90, s.platform] (leBytes 2 s.entries.length)
      s.ident _ _ rfl rfl (leBytes_length _ _).symm
  have hlength : leNat (leBytes 2 s.entries.length) = s.entries.length := leNat_leBytes s.entries_lt
  rw [sectionsFrom, if_pos hin, hslice, unwrap, ok_bind, hindicator, unwrap, ok_bind]
  have hvalid : ¬((if last then (0x91 : UInt8) else 0x90) ≠ 0x90 ∧
      (if last then (0x91 : UInt8) else 0x90) ≠ 0x91) := by
    cases last with
    | false => exact fun h => h.1 rfl
    | true => exact fun h => h.2 rfl
  rw [if_neg hvalid, hplatform, unwrap, ok_bind, hcount, unwrap, ok_bind]
  rw [← hlength] at himage
  split
  · rename_i fault hfault
    cases hfault.symm.trans himage
  · rename_i found stop hfound
    cases hfound.symm.trans himage
    rfl
  · rename_i stop hpassed
    cases hpassed.symm.trans himage
    cases last with
    | false => rfl
    | true => rfl

theorem sectionsFrom_zeros (pre : List UInt8) (n : ℕ) :
    sectionsFrom (pre ++ List.replicate n 0) pre.length = .ok none := by
  rw [sectionsFrom]
  split
  · rename_i hin
    rw [List.length_append, List.length_replicate] at hin
    have hzeros : slice (pre ++ List.replicate n (0 : UInt8)) pre.length 32 =
        some (List.replicate 32 0) := by
      refine @slice_of_append _ _ pre (List.replicate 32 0) (List.replicate (n - 32) 0) _ _ ?_ rfl rfl
      rw [List.append_assoc, List.replicate_append_replicate, Nat.add_sub_cancel' (by omega)]
    rw [hzeros]
    rfl
  · rfl

theorem sectionsImage_cons (s : BootSection) (rest : List BootSection) :
    sectionsImage (s :: rest) =
      if s.platform = platformUefi then
        (s.entries.findSome? BootEntry.image).or (sectionsImage rest)
      else sectionsImage rest := by
  unfold sectionsImage
  by_cases hplatform : s.platform = platformUefi
  · rw [if_pos hplatform, List.filter_cons_of_pos (by simpa using hplatform), List.flatMap_cons,
      List.findSome?_append]
  · rw [if_neg hplatform, List.filter_cons_of_neg (by simpa using hplatform)]

theorem sectionImage_encode (s : BootSection) (last : Bool) (pre post : List UInt8) :
    ∃ next, sectionImage (pre ++ s.encode last ++ post) s.platform s.entries.length
        (pre.length + 32) =
          .ok (if s.platform = platformUefi then s.entries.findSome? BootEntry.image else none, next) ∧
      ((if s.platform = platformUefi then s.entries.findSome? BootEntry.image else none) = none →
        next = (pre ++ s.encode last).length) := by
  have hsplit : pre ++ s.encode last ++ post =
      pre ++ s.header last ++ s.entries.flatMap BootEntry.encode ++ post := by
    simp only [BootSection.encode, List.append_assoc]
  have hstart : pre.length + 32 = (pre ++ s.header last).length := by
    rw [List.length_append, s.header_length]
  unfold sectionImage
  by_cases hplatform : s.platform = platformUefi
  · simp only [if_pos hplatform]
    obtain ⟨stop, hscan, hstop⟩ := sectionEntries_encode s.entries (pre ++ s.header last) post
    rw [← hsplit, ← hstart] at hscan
    refine ⟨stop, hscan, fun hnone => ?_⟩
    rw [hstop hnone, BootSection.encode, List.append_assoc]
  · simp only [if_neg hplatform]
    refine ⟨_, rfl, fun _ => ?_⟩
    have hentries : (s.entries.flatMap BootEntry.encode).length = s.entries.length * 32 := by
      rw [List.length_flatMap]
      simp [BootEntry.encode_length]
    rw [hstart, ← hentries, ← List.length_append, BootSection.encode, List.append_assoc]

/-- The walk over the sections of a catalog. -/
theorem sectionsFrom_encode (sections : List BootSection) (pre : List UInt8) (n : ℕ) :
    sectionsFrom (pre ++ encodeSections sections ++ List.replicate n 0) pre.length =
      .ok (sectionsImage sections) := by
  induction sections generalizing pre with
  | nil =>
    rw [encodeSections, List.append_nil]
    exact sectionsFrom_zeros pre n
  | cons s rest ih =>
    have hsplit : pre ++ encodeSections (s :: rest) ++ List.replicate n 0 =
        pre ++ s.encode rest.isEmpty ++ (encodeSections rest ++ List.replicate n 0) := by
      simp only [encodeSections, List.append_assoc]
    have hheader : pre ++ encodeSections (s :: rest) ++ List.replicate n 0 =
        pre ++ s.header rest.isEmpty ++ (s.entries.flatMap BootEntry.encode ++
          (encodeSections rest ++ List.replicate n 0)) := by
      simp only [encodeSections, BootSection.encode, List.append_assoc]
    obtain ⟨next, himage, hnext⟩ := sectionImage_encode s rest.isEmpty pre
      (encodeSections rest ++ List.replicate n 0)
    rw [← hsplit] at himage
    have hrest : (if rest.isEmpty then .ok none else
        sectionsFrom (pre ++ encodeSections (s :: rest) ++ List.replicate n 0)
          (pre ++ s.encode rest.isEmpty).length) = .ok (sectionsImage rest) := by
      cases rest with
      | nil => rfl
      | cons t rest =>
        have hwalk := ih (pre ++ s.encode false)
        rw [hsplit, ← List.append_assoc]
        exact hwalk
    rw [sectionsFrom_header hheader himage, sectionsImage_cons]
    by_cases hplatform : s.platform = platformUefi
    · simp only [if_pos hplatform] at hnext ⊢
      cases hfound : s.entries.findSome? BootEntry.image with
      | some image => rfl
      | none =>
        rw [hnext hfound]
        exact hrest
    · simp only [if_neg hplatform] at hnext ⊢
      rw [hnext trivial]
      exact hrest

/-- A catalog gives its initial entry when it is for UEFI, and else the first bootable
entry of its sections for UEFI, whatever stands before it. No bytes at all make the walk
fail. -/
theorem parseCatalog_encode :
    (∀ c : Catalog, parseCatalog c.encode = .ok c.uefiImage) ∧
      ∀ cat : List UInt8, ∃ image, parseCatalog cat = .ok image := by
  refine ⟨fun c => ?_, fun cat => parseCatalog_ok⟩
  have hvalidation := c.validation_length
  have hinitial := c.initial.encode_length
  have hstart : (c.validation ++ c.initial.encode).length = 64 := by
    rw [List.length_append]
    omega
  have hlen : ¬c.encode.length < 64 := by
    rw [Catalog.encode, List.length_append, List.length_append, hstart]
    omega
  have hheader : c.encode[0]? = some 0x01 := rfl
  have hplatform : c.encode[1]? = some c.platform := rfl
  have hkey : slice c.encode 30 2 = some [0x55, 0xAA] := by
    refine @slice_of_append _ _ ([0x01, c.platform] ++ c.ident) [0x55, 0xAA]
      (c.initial.encode ++ encodeSections c.sections ++ List.replicate c.padding 0) _ _ ?_ ?_ rfl
    · simp only [Catalog.encode, Catalog.validation, List.append_assoc]
    · simp only [List.length_append, c.ident_len, List.length_cons, List.length_nil]
  have hentry : slice c.encode 32 32 = some c.initial.encode := by
    refine @slice_of_append _ _ c.validation c.initial.encode
      (encodeSections c.sections ++ List.replicate c.padding 0) _ _ ?_ hvalidation.symm hinitial.symm
    simp only [Catalog.encode, List.append_assoc]
  have hvalid : ¬((0x01 : UInt8) ≠ 0x01 ∨ ([0x55, 0xAA] : List UInt8) ≠ [0x55, 0xAA]) :=
    not_or.mpr ⟨not_not.mpr rfl, not_not.mpr rfl⟩
  have hwalk := sectionsFrom_encode c.sections (c.validation ++ c.initial.encode) c.padding
  rw [hstart] at hwalk
  unfold parseCatalog Catalog.uefiImage
  rw [if_neg hlen, hheader, unwrap, ok_bind, hkey, unwrap, ok_bind, if_neg hvalid, hplatform, unwrap,
    ok_bind]
  by_cases huefi : c.platform = platformUefi
  · rw [if_pos huefi, if_pos huefi, hentry, unwrap, ok_bind]
    exact parseEntry_encode c.initial
  · rw [if_neg huefi, if_neg huefi]
    exact hwalk

end Lamfold.ElTorito
