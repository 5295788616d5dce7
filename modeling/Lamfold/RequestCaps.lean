import Lamfold.CramfsRequests
import Lamfold.UdfRequests
import Lamfold.PlainRequests
import Lamfold.CpioChain
import Lamfold.SquashRequests
import Lamfold.IsoRequests
import Lamfold.ErofsRequests

/-!
The read cap over the seven frontends. Five of them bound every length before they ask.
Cramfs asks for a stored page and UDF for a block by the length that the image records.
-/
namespace Lamfold

open Effects

/-- On `src`, no frontend asks for more than the cap or the caller's buffer, whatever the
decompressors, the cpio stream readers and the zisofs feature are. -/
structure RequestsCapped {ρ : Type} (codecs : Codecs ρ) (readers : Cpio.Readers) (zisofs : Bool)
    (src : Source) : Prop where
  cpio : (Cpio.recorded readers).Capped src
  cramfs : (Cramfs.recorded codecs).Capped src
  erofs : (Erofs.recorded codecs).Capped src
  iso9660 : (Iso9660.recorded zisofs codecs).Capped src
  /-- `el_torito_uefi_image` is a method beside the trait's. -/
  elTorito : ∀ iso, AsksAt maxBootFileBytes (Iso9660.elToritoUefiImage (m := Asking))
    Iso9660.elToritoUefiImage iso
  romfs : Romfs.recorded.Capped src
  squashfs : (SquashFs.recorded codecs).Capped src
  udf : Udf.recorded.Capped src

/-- Requests are capped exactly when the pages that a cramfs volume stores and the blocks
that a UDF volume records fit the cap. -/
theorem requestsCapped_iff {ρ : Type} (codecs : Codecs ρ) (readers : Cpio.Readers)
    (zisofs : Bool) (src : Source) :
    RequestsCapped codecs readers zisofs src ↔
      (∀ c, Cramfs.mount src = .ok c → Cramfs.FilesFit codecs src maxBootFileBytes) ∧
        Udf.BlocksFit maxBootFileBytes src := by
  constructor
  · intro h
    exact ⟨(Cramfs.capped_iff codecs src).mp h.cramfs, (Udf.capped_iff src).mp h.udf⟩
  · rintro ⟨hpages, hblocks⟩
    exact {
      cpio := Cpio.capped readers src
      cramfs := (Cramfs.capped_iff codecs src).mpr hpages
      erofs := Erofs.capped codecs src
      iso9660 := Iso9660.capped src zisofs codecs
      elTorito := fun _ => Iso9660.asks_elToritoUefiImage
      romfs := Romfs.capped src
      squashfs := SquashFs.capped codecs src
      udf := (Udf.capped_iff src).mpr hblocks }

/-- A read of one page of a 92-byte cramfs volume asks for almost 4 GiB. -/
theorem not_requestsCapped_longPage :
    ¬ RequestsCapped noStreams Cpio.plainReaders false Cramfs.longPage := by
  intro h
  obtain ⟨hmount, hrequest⟩ := Cramfs.longPage_request
  have hle := h.cramfs.calls hmount .refl () _ _ hrequest
  exact absurd hle (by decide)

end Lamfold
