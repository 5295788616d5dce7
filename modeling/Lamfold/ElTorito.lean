import Lamfold.Substrate

/-!
The El Torito boot catalog: where the UEFI boot image of an optical medium is. The
catalog is not part of the file system.
-/
namespace Lamfold.ElTorito

open Effects Bytes

def platformUefi : UInt8 := 0xEF

def bootable : UInt8 := 0x88

/-- A boot image, in blocks of 2048 bytes and sectors of 512. -/
structure UefiImage where
  lba : ℕ
  sectors : ℕ
  deriving DecidableEq, Repr

/-- A 32-byte entry: boot indicator, sector count at 6, block at 8. -/
def parseEntry (e : List UInt8) : Outcome (Option UefiImage) :=
  if e.length < 12 then .ok none
  else do
    let indicator ← unwrap e[0]?
    if indicator ≠ bootable then return none
    else do
      let sectors ← unwrap (slice e 6 2)
      let lba ← unwrap (slice e 8 4)
      return some ⟨leNat lba, leNat sectors⟩

/-- The first of `count` entries from `off` on that is an image. -/
def sectionEntries (cat : List UInt8) : ℕ → ℕ → Outcome (Option UefiImage × ℕ)
  | 0, off => .ok (none, off)
  | count + 1, off =>
    if off + 32 > cat.length then .ok (none, off)
    else do
      let e ← unwrap (slice cat off 32)
      let image ← parseEntry e
      match image with
      | some image => return (some image, off)
      | none => sectionEntries cat count (off + 32)

theorem sectionEntries_le {cat : List UInt8} {count off stop : ℕ} {image : Option UefiImage}
    (h : sectionEntries cat count off = .ok (image, stop)) : off ≤ stop := by
  induction count generalizing off with
  | zero =>
    obtain ⟨-, rfl⟩ := Prod.mk.inj (Except.ok.inj h)
    exact le_rfl
  | succ count ih =>
    rw [sectionEntries] at h
    split at h
    · obtain ⟨-, rfl⟩ := Prod.mk.inj (Except.ok.inj h)
      exact le_rfl
    obtain ⟨e, -, h⟩ := bind_eq_ok.mp h
    obtain ⟨found, -, h⟩ := bind_eq_ok.mp h
    cases found with
    | some found =>
      obtain ⟨-, rfl⟩ := Prod.mk.inj (Except.ok.inj h)
      exact le_rfl
    | none => exact Nat.le_of_succ_le (Nat.le_trans (by omega) (ih h))

/-- The image of a section, and where the next header is: the entries of another
platform are passed over. -/
def sectionImage (cat : List UInt8) (platform : UInt8) (count off : ℕ) :
    Outcome (Option UefiImage × ℕ) :=
  if platform = platformUefi then sectionEntries cat count off
  else .ok (none, off + count * 32)

theorem sectionImage_le {cat : List UInt8} {platform : UInt8} {count off stop : ℕ}
    {image : Option UefiImage} (h : sectionImage cat platform count off = .ok (image, stop)) :
    off ≤ stop := by
  unfold sectionImage at h
  split at h
  · exact sectionEntries_le h
  · obtain ⟨-, rfl⟩ := Prod.mk.inj (Except.ok.inj h)
    exact Nat.le_add_right _ _

/-- Walk the section headers from index `off` on: 0x90 says that more follow, 0x91 is
the last one. -/
def sectionsFrom (cat : List UInt8) (off : ℕ) : Outcome (Option UefiImage) :=
  if off + 32 ≤ cat.length then do
    let hdr ← unwrap (slice cat off 32)
    let indicator ← unwrap hdr[0]?
    if indicator ≠ 0x90 ∧ indicator ≠ 0x91 then return none
    else do
      let platform ← unwrap hdr[1]?
      let count ← unwrap (slice hdr 2 2)
      match h : sectionImage cat platform (leNat count) (off + 32) with
      | .error fault => .error fault
      | .ok (some image, _) => return some image
      | .ok (none, next) => if indicator = 0x91 then return none else sectionsFrom cat next
  else .ok none
  termination_by cat.length - off
  decreasing_by
    have hle := sectionImage_le h
    omega

/-- The first UEFI image of a catalog: the default entry when the catalog itself is
for UEFI, else that of a section. -/
def parseCatalog (cat : List UInt8) : Outcome (Option UefiImage) :=
  if cat.length < 64 then .ok none
  else do
    let header ← unwrap cat[0]?
    let key ← unwrap (slice cat 30 2)
    if header ≠ 0x01 ∨ key ≠ [0x55, 0xAA] then return none
    else do
      let platform ← unwrap cat[1]?
      if platform = platformUefi then do
        let e ← unwrap (slice cat 32 32)
        parseEntry e
      else sectionsFrom cat 64

/-- The sectors of a FAT image, from its boot sector. -/
def fatImageSectors (boot : List UInt8) : Option ℕ := do
  let key ← slice boot 510 2
  if key ≠ [0x55, 0xAA] then none
  else do
    let bytesPerSector ← slice boot 11 2
    let total16 ← slice boot 19 2
    let total32 ← slice boot 32 4
    let total := if leNat total16 ≠ 0 then leNat total16 else leNat total32
    if leNat bytesPerSector ∉ [512, 1024, 2048, 4096] ∨ total = 0 then none
    else
      let sectors := total * (leNat bytesPerSector / 512)
      if sectors < 2 ^ 32 then some sectors else none

end Lamfold.ElTorito
