import Lamfold.Cpio
import Lamfold.Cramfs
import Lamfold.Erofs
import Lamfold.Iso9660
import Lamfold.Romfs
import Lamfold.Runs
import Lamfold.Squash
import Lamfold.Udf

/-!
The flock: every frontend under one name, with its sniff, its mount and its calls.
The code that a frontend gets from outside (block decoders, the stream decoders and
the reader of cpio archives) is given once for all of them.
-/
namespace Lamfold

open Effects

theorem Romfs.frontend_keeps (P : Romfs → Prop) : Romfs.frontend.Keeps P where
  lookup dir name := preserves_reading P fun r => r.lookup dir name
  readDir dir := preserves_reading P fun r => r.readDir dir
  metadata node := preserves_reading P fun r => r.metadata node
  readAt node off buf := preserves_reading P fun r => r.readAt node off buf
  readLink node := preserves_reading P fun r => r.readLink node

theorem Cpio.frontend_keeps (P : Cpio → Prop) : Cpio.frontend.Keeps P where
  lookup dir name := preserves_reading P fun c => c.lookup dir name
  readDir dir := preserves_reading P fun c => c.readDir dir
  metadata id := preserves_reading P fun c => c.metadata id
  readAt id off buf := preserves_reading P fun c => c.readAt id off buf
  readLink id := preserves_reading P fun c => c.readLink id

/-- A frontend. That of ISO 9660 is built with or without its feature `zisofs`. -/
inductive Member
  | iso (zisofs : Bool)
  | udf
  | squashfs
  | erofs
  | cramfs
  | romfs
  | cpio

namespace Member

/-- A mounted volume. -/
def Volume : Member → Type
  | iso _ => Iso9660
  | udf => Udf
  | squashfs => SquashFs
  | erofs => Erofs
  | cramfs => Cramfs
  | romfs => Romfs
  | cpio => Cpio

/-- `FoldFrontend::probe`. -/
def probe (src : Source) : Member → Outcome Bool
  | iso _ => Iso9660.probe src
  | udf => Udf.probe src
  | squashfs => SquashFs.probe src
  | erofs => Erofs.probe src
  | cramfs => Cramfs.probe src
  | romfs => Romfs.probe src
  | cpio => Cpio.probe src

section Methods

variable {ρ : Type} (codecs : Codecs ρ)

/-- `FoldFrontend::open`. -/
def mount (readers : Cpio.Readers) (src : Source) : (member : Member) → Outcome member.Volume
  | iso _ => Iso9660.mount src
  | udf => Udf.mount src
  | squashfs => SquashFs.mount codecs src
  | erofs => Erofs.mount src
  | cramfs => Cramfs.mount src
  | romfs => Romfs.mount src
  | cpio => Cpio.mount readers src

/-- The calls; only EROFS shows what it reads to the verifier. -/
def frontend (verifier : Verifier) : (member : Member) → FoldFrontend member.Volume
  | iso zisofs => Iso9660.frontend zisofs codecs
  | udf => Udf.frontend
  | squashfs => SquashFs.frontend codecs
  | erofs => Erofs.frontend codecs verifier
  | cramfs => Cramfs.frontend codecs
  | romfs => Romfs.frontend
  | cpio => Cpio.frontend

/-- The states a mounted volume can reach, under any verifiers. -/
def Runs (member : Member) (s t : member.Volume) : Prop :=
  Reaches (fun verifier => frontend codecs verifier member) s t

end Methods

end Member

end Lamfold
