import Lamfold.CpioChain
import Lamfold.CramfsPages
import Lamfold.ErofsState
import Lamfold.Flock
import Lamfold.IsoState
import Lamfold.LinkErrors
import Lamfold.RomfsFiles
import Lamfold.SquashState
import Lamfold.UdfAddresses

/-!
Kinds and link targets. `resolve` follows a node that `metadata` calls a symlink and
then needs a target from `readLink`. A frontend tells kinds when both go by one kind
of the node that no call changes. All do, except UDF: it takes the kind from the file
type of the File Entry, and never has a target.
-/
namespace Lamfold

open Effects

section TellsKinds

variable {σ ι : Type}

/-- In the states of `I`, both calls go by the kind that `kindAt` gives a node. -/
structure TellsKinds (fs : ι → FoldFrontend σ) (I : σ → Prop)
    (kindAt : σ → NodeId → FileKind → Prop) : Prop where
  unique : ∀ {s node k k'}, kindAt s node k → kindAt s node k' → k = k'
  invariant : ∀ i, (fs i).Keeps I
  kept : ∀ i node k, (fs i).Keeps fun s => I s ∧ kindAt s node k
  metadata : ∀ {i node md s t}, I s → exec ((fs i).metadata node) s = (.ok md, t) →
    kindAt s node md.kind
  readLink : ∀ {i node target s t}, I s → exec ((fs i).readLink node) s = (.ok target, t) →
    ∃ k, kindAt s node k ∧ (target.isSome ↔ k = .symlink)

variable {fs : ι → FoldFrontend σ} {I : σ → Prop} {kindAt : σ → NodeId → FileKind → Prop}

/-- In a run the two calls agree on a node, whichever comes first. -/
theorem TellsKinds.agree (h : TellsKinds fs I kindAt) {s t u t' u' : σ} (hs : I s)
    (hst : Reaches fs s t) (hsu : Reaches fs s u) (hrun : Reaches fs t u ∨ Reaches fs u t) (i j : ι)
    {node : NodeId} {md : Metadata} {target : Option (List UInt8)}
    (hmd : exec ((fs i).metadata node) t = (.ok md, t'))
    (htarget : exec ((fs j).readLink node) u = (.ok target, u')) :
    md.kind = .symlink ↔ target.isSome := by
  have ht := hst.keeps h.invariant hs
  have hu := hsu.keeps h.invariant hs
  have hkind := h.metadata ht hmd
  obtain ⟨k, hk, hiff⟩ := h.readLink hu htarget
  have heq : md.kind = k := by
    rcases hrun with hrun | hrun
    · have hlater := hrun.keeps (fun i => h.kept i node md.kind) ⟨ht, hkind⟩
      exact h.unique hlater.2 hk
    · have hlater := hrun.keeps (fun i => h.kept i node k) ⟨hu, hk⟩
      exact h.unique hkind hlater.2
  rw [heq, hiff]

end TellsKinds

namespace InternTable

variable {κ ι : Type} {kind : ι → FileKind}

/-- The kind of a node of a table. -/
def KindAt (kind : ι → FileKind) (t : InternTable κ ι) (node : NodeId) (k : FileKind) : Prop :=
  ∃ inode, t.inode node = .ok inode ∧ kind inode = k

theorem KindAt.unique {t : InternTable κ ι} {node : NodeId} {k k' : FileKind}
    (h : t.KindAt kind node k) (h' : t.KindAt kind node k') : k = k' := by
  obtain ⟨inode, hinode, rfl⟩ := h
  obtain ⟨inode', hinode', rfl⟩ := h'
  rw [hinode] at hinode'
  rw [Except.ok.inj hinode']

theorem KindAt.intern [DecidableEq κ] {t : InternTable κ ι} {node : NodeId} {k : FileKind}
    (h : t.KindAt kind node k) (key : κ) (new : ι) : (t.intern key new).2.KindAt kind node k := by
  obtain ⟨inode, hinode, hk⟩ := h
  exact ⟨inode, inode_intern hinode key new, hk⟩

end InternTable

section Members

variable {ρ : Type} (codecs : Codecs ρ)

theorem Iso9660.tellsKinds (zisofs : Bool) (vol : Iso9660.Volume) :
    TellsKinds (fun _ : Verifier => Iso9660.frontend zisofs codecs) (Iso9660.Opened vol)
      fun iso node k => iso.table.KindAt Iso9660.Inode.kind node k where
  unique h h' := h.unique h'
  invariant _ := Iso9660.frontend_keeps_opened vol
  kept _ node k := by
    refine (Iso9660.frontend_keeps_opened vol).and ?_
    refine Iso9660.frontend_keeps (P := fun t => t.KindAt Iso9660.Inode.kind node k) ?_
      (fun _ h => h) fun _ _ h _ => h
    intro t key inode _ ht
    exact ht.intern key inode
  metadata := by
    intro _ node md s t _ h
    obtain ⟨inode, u, hinode, h⟩ := exec_bind_eq_ok.mp h
    cases h
    exact ⟨inode, congrArg Prod.fst hinode, rfl⟩
  readLink := by
    intro _ node target s t hs h
    obtain ⟨inode, u, hinode, h⟩ := exec_bind_eq_ok.mp h
    have hfound : s.table.inode node = .ok inode := congrArg Prod.fst hinode
    cases h
    exact ⟨inode.kind, ⟨inode, hfound, rfl⟩, ((hs.nodes.inode hfound).kind_iff).symm⟩

theorem SquashFs.tellsKinds (vol : SquashFs.Volume) :
    TellsKinds (fun _ : Verifier => SquashFs.frontend codecs) (SquashFs.Opened vol)
      fun fs node k => fs.table.KindAt SquashFs.SquashInode.kind node k where
  unique h h' := h.unique h'
  invariant _ := SquashFs.frontend_keeps_opened vol
  kept _ node k := by
    refine (SquashFs.frontend_keeps_opened vol).and (SquashFs.frontend_keeps ?_)
    intro other entries _
    refine Preserves.zoom (P := fun t => t.KindAt SquashFs.SquashInode.kind node k) ?_
      (fun _ h => h) fun _ _ h _ => h
    exact InternTable.internAll_preserves fun t r child _ _ ht => ht.intern r child
  metadata := by
    intro _ node md s t _ h
    obtain ⟨inode, u, hinode, h⟩ := exec_bind_eq_ok.mp h
    cases h
    exact ⟨inode, congrArg Prod.fst hinode, rfl⟩
  readLink := by
    intro _ node target s t hs h
    obtain ⟨inode, u, hinode, h⟩ := exec_bind_eq_ok.mp h
    have hfound : s.table.inode node = .ok inode := congrArg Prod.fst hinode
    refine ⟨inode.kind, ⟨inode, hfound, rfl⟩, ?_⟩
    rw [(hs.nodes.inode hfound).kind_eq]
    cases hbody : inode.body with
    | symlink target =>
      rw [hbody] at h
      cases h
      exact iff_of_true rfl rfl
    | dir absBlock offset size =>
      rw [hbody] at h
      cases h
      exact iff_of_false Bool.false_ne_true nofun
    | file file =>
      rw [hbody] at h
      cases h
      exact iff_of_false Bool.false_ne_true nofun
    | other =>
      rw [hbody] at h
      cases h
      exact iff_of_false Bool.false_ne_true nofun

/-- Frontends whose nodes have the kinds that `kindOf` reads, in every state. -/
theorem tellsKinds_of_fixed {σ ι : Type} {fs : ι → FoldFrontend σ} {I : σ → Prop}
    {kindOf : NodeId → Outcome FileKind} (hI : ∀ i, (fs i).Keeps I)
    (hmetadata : ∀ {i node md s t}, I s → exec ((fs i).metadata node) s = (.ok md, t) →
      kindOf node = .ok md.kind)
    (hreadLink : ∀ {i node target s t}, I s → exec ((fs i).readLink node) s = (.ok target, t) →
      ∃ k, kindOf node = .ok k ∧ (target.isSome ↔ k = .symlink)) :
    TellsKinds fs I fun _ node k => kindOf node = .ok k where
  unique h h' := Except.ok.inj (h.symm.trans h')
  invariant := hI
  kept i _ _ := (hI i).and ⟨fun _ _ _ h => h, fun _ _ h => h, fun _ _ h => h,
    fun _ _ _ _ h => h, fun _ _ h => h⟩
  metadata := hmetadata
  readLink := hreadLink

theorem Erofs.tellsKinds (vol : Erofs.Volume) :
    TellsKinds (Erofs.frontend codecs) (Erofs.Holds codecs vol)
      fun _ node k => (do let inode ← Erofs.readInode vol node; return inode.kind) = .ok k := by
  apply tellsKinds_of_fixed
  · exact (Erofs.cacheKept_holds codecs vol).frontend
  · intro _ node md s t hs h
    obtain ⟨inode, u, hinode, -, h⟩ := Erofs.exec_parsed_eq_ok hs h
    cases h
    exact bind_eq_ok.mpr ⟨inode, hinode, rfl⟩
  · intro _ node target s t hs h
    obtain ⟨inode, u, hinode, -, h⟩ := Erofs.exec_parsed_eq_ok hs h
    refine ⟨inode.kind, bind_eq_ok.mpr ⟨inode, hinode, rfl⟩, ?_⟩
    split at h
    · rename_i hkind
      cases h
      exact iff_of_false Bool.false_ne_true hkind
    · rename_i hkind
      obtain ⟨len, v, -, h⟩ := exec_bind_eq_ok.mp h
      obtain ⟨data, w, -, h⟩ := exec_bind_eq_ok.mp h
      cases h
      exact iff_of_true rfl (not_not.mp hkind)

theorem Cramfs.tellsKinds (c : Cramfs) :
    TellsKinds (fun _ : Verifier => Cramfs.frontend codecs) (· = c)
      fun _ node k =>
        (do let inode ← Cramfs.parseInode c.src node; return Cramfs.kind inode.mode) = .ok k := by
  apply tellsKinds_of_fixed
  · exact fun _ => Cramfs.frontend_keeps codecs _
  · intro _ node md s t hs h
    subst hs
    obtain ⟨inode, hinode, h⟩ := bind_eq_ok.mp (congrArg Prod.fst h)
    cases h
    exact bind_eq_ok.mpr ⟨inode, hinode, rfl⟩
  · intro _ node target s t hs h
    subst hs
    obtain ⟨inode, hinode, h⟩ := bind_eq_ok.mp (congrArg Prod.fst h)
    refine ⟨Cramfs.kind inode.mode, bind_eq_ok.mpr ⟨inode, hinode, rfl⟩, ?_⟩
    split at h
    · rename_i hkind
      cases h
      exact iff_of_false Bool.false_ne_true hkind
    · rename_i hkind
      obtain ⟨data, -, h⟩ := bind_eq_ok.mp h
      cases h
      exact iff_of_true rfl (not_not.mp hkind)

theorem Romfs.kind_eq_symlink {ftype : ℕ} :
    Romfs.kind ftype = .symlink ↔ ftype = Romfs.ftSymlink := by
  unfold Romfs.kind
  split_ifs with hdir hregular hsymlink
  · exact iff_of_false nofun (by rw [hdir]; decide)
  · exact iff_of_false nofun (by rw [hregular]; decide)
  · exact iff_of_true rfl hsymlink
  · exact iff_of_false nofun hsymlink

theorem Romfs.tellsKinds (r : Romfs) :
    TellsKinds (fun _ : Verifier => Romfs.frontend) (· = r)
      fun _ node k =>
        (do let (_, h) ← Romfs.resolvedHeader r.src node; return Romfs.kind h.ftype) = .ok k := by
  apply tellsKinds_of_fixed
  · exact fun _ => Romfs.frontend_keeps _
  · intro _ node md s t hs h
    subst hs
    obtain ⟨⟨at_, header⟩, hheader, h⟩ := bind_eq_ok.mp (congrArg Prod.fst h)
    cases h
    exact bind_eq_ok.mpr ⟨_, hheader, rfl⟩
  · intro _ node target s t hs h
    subst hs
    obtain ⟨⟨at_, header⟩, hheader, h⟩ := bind_eq_ok.mp (congrArg Prod.fst h)
    refine ⟨Romfs.kind header.ftype, bind_eq_ok.mpr ⟨_, hheader, rfl⟩, ?_⟩
    rw [Romfs.kind_eq_symlink]
    dsimp only at h
    split at h
    · rename_i hkind
      cases h
      exact iff_of_false Bool.false_ne_true hkind
    · rename_i hkind
      obtain ⟨len, -, h⟩ := bind_eq_ok.mp h
      obtain ⟨target', -, h⟩ := bind_eq_ok.mp h
      cases h
      exact iff_of_true rfl (not_not.mp hkind)

theorem Cpio.tellsKinds (c : Cpio) :
    TellsKinds (fun _ : Verifier => Cpio.frontend) (· = c)
      fun _ id k => (do let n ← c.node id; return n.kind) = .ok k := by
  apply tellsKinds_of_fixed
  · exact fun _ => Cpio.frontend_keeps _
  · intro _ id md s t hs h
    subst hs
    obtain ⟨n, hn, h⟩ := bind_eq_ok.mp (congrArg Prod.fst h)
    cases h
    exact bind_eq_ok.mpr ⟨n, hn, rfl⟩
  · intro _ id target s t hs h
    subst hs
    obtain ⟨n, hn, h⟩ := bind_eq_ok.mp (congrArg Prod.fst h)
    refine ⟨n.kind, bind_eq_ok.mpr ⟨n, hn, rfl⟩, ?_⟩
    split at h
    · rename_i hkind
      cases h
      exact iff_of_false Bool.false_ne_true hkind
    · rename_i hkind
      obtain ⟨bytes, -, h⟩ := bind_eq_ok.mp h
      cases h
      exact iff_of_true rfl (not_not.mp hkind)

end Members

namespace Udf

/-- The file type in the ICB tag of the File Entry in block `lba`. -/
def icbFileType (vol : Volume) (lba : ℕ) : Option UInt8 :=
  match readBlock vol.src vol.blockSize lba with
  | .ok buf => buf[27]?
  | .error _ => none

/-- The File Entry of the node says that it is a symbolic link. -/
def SymlinkIcb (u : Udf) (node : NodeId) : Prop :=
  ∃ lba, (lba, node) ∈ u.table.byKey ∧ icbFileType u.vol lba = some ftSymlink

theorem fileTypeKind_eq_symlink {fileType : UInt8} :
    fileTypeKind fileType = .symlink ↔ fileType = ftSymlink := by
  unfold fileTypeKind
  split_ifs with hdir hregular hsymlink
  · exact iff_of_false nofun (by rw [hdir]; decide)
  · exact iff_of_false nofun (by rw [hregular]; decide)
  · exact iff_of_true rfl hsymlink
  · exact iff_of_false nofun hsymlink

theorem readFe_symlink_iff {vol : Volume} {lba : ℕ} {inode : UdfInode}
    (h : readFe vol lba = .ok inode) :
    inode.kind = .symlink ↔ icbFileType vol lba = some ftSymlink := by
  obtain ⟨buf, hbuf, h⟩ := bind_eq_ok.mp h
  obtain ⟨tag, -, h⟩ := bind_eq_ok.mp h
  obtain ⟨⟨lEaAt, lAdAt, eaStart⟩, -, h⟩ := bind_eq_ok.mp h
  obtain ⟨fileType, hfileType, h⟩ := bind_eq_ok.mp h
  obtain ⟨icbFlags, -, h⟩ := bind_eq_ok.mp h
  obtain ⟨infoLen, -, h⟩ := bind_eq_ok.mp h
  obtain ⟨lEa, -, h⟩ := bind_eq_ok.mp h
  obtain ⟨lAd, -, h⟩ := bind_eq_ok.mp h
  obtain ⟨adOff, -, h⟩ := bind_eq_ok.mp h
  obtain ⟨data, -, h⟩ := bind_eq_ok.mp h
  obtain rfl := Except.ok.inj h
  unfold icbFileType
  rw [hbuf]
  dsimp only
  rw [okOr_eq_ok.mp hfileType, Option.some.injEq]
  exact fileTypeKind_eq_symlink

theorem metadata_symlink_iff {vol : Volume} {u t : Udf} {node : NodeId} {md : Metadata}
    (hu : Named vol u) (h : exec (metadata node) u = (.ok md, t)) :
    md.kind = .symlink ↔ SymlinkIcb u node := by
  obtain ⟨inode, v, hinode, h⟩ := exec_bind_eq_ok.mp h
  have hfound : u.table.nodes[node]? = some inode :=
    InternTable.inode_eq_ok.mp (congrArg Prod.fst hinode)
  have hkey : ∀ lba, (lba, node) ∈ u.table.byKey → readFe vol lba = .ok inode := by
    intro lba hlba
    obtain ⟨inode', hinode', hread⟩ := hu.nodes lba node hlba
    rw [hfound] at hinode'
    exact (Option.some.inj hinode') ▸ hread
  cases h
  show inode.kind = .symlink ↔ _
  constructor
  · intro hkind
    obtain ⟨lba, hlba⟩ := InternTable.exists_key hfound
    refine ⟨lba, hlba, ?_⟩
    rw [hu.vol_eq]
    exact (readFe_symlink_iff (hkey lba hlba)).mp hkind
  · intro hicb
    obtain ⟨lba, hlba, htype⟩ := hicb
    rw [hu.vol_eq] at htype
    exact (readFe_symlink_iff (hkey lba hlba)).mpr htype

end Udf

namespace Member

open Lamfold.Path

variable {ρ : Type}

/-- The node stands for a symbolic link of which no call has the target. -/
def LinkLost : (member : Member) → member.Volume → NodeId → Prop
  | udf, u, node => Udf.SymlinkIcb u node
  | iso _, _, _ => False
  | squashfs, _, _ => False
  | erofs, _, _ => False
  | cramfs, _, _ => False
  | romfs, _, _ => False
  | cpio, _, _ => False

/-- What both calls answer on a node, in two states of one run. -/
theorem symlink_iff_of_calls {codecs : Codecs ρ} {readers : Cpio.Readers} {src : Source}
    {member : Member} {s t u t' u' : member.Volume} (hmount : mount codecs readers src member = .ok s)
    (hst : member.Runs codecs s t) (hsu : member.Runs codecs s u)
    (hrun : member.Runs codecs t u ∨ member.Runs codecs u t) {verifier verifier' : Verifier}
    {node : NodeId} {md : Metadata} {target : Option (List UInt8)}
    (hmd : exec ((frontend codecs verifier member).metadata node) t = (.ok md, t'))
    (htarget : exec ((frontend codecs verifier' member).readLink node) u = (.ok target, u')) :
    (md.kind = .symlink ↔ target.isSome) ↔ ¬member.LinkLost t node := by
  cases member with
  | iso zisofs =>
    have htells := Iso9660.tellsKinds codecs zisofs (s : Iso9660).vol
    exact iff_of_true (htells.agree (Iso9660.mount_opened hmount).1 hst hsu hrun verifier verifier'
      hmd htarget) not_false
  | udf =>
    have hnamed := hst.keeps (fun _ => Udf.frontend_keeps_named _) (Udf.mount_named hmount)
    have hiff := Udf.metadata_symlink_iff hnamed hmd
    obtain rfl : none = target := Except.ok.inj (congrArg Prod.fst htarget)
    rw [hiff]
    exact ⟨fun h hlost => Bool.false_ne_true (h.mp hlost),
      fun h => iff_of_false h Bool.false_ne_true⟩
  | squashfs =>
    have htells := SquashFs.tellsKinds codecs (s : SquashFs).vol
    exact iff_of_true (htells.agree (SquashFs.mount_opened hmount) hst hsu hrun verifier verifier'
      hmd htarget) not_false
  | erofs =>
    have htells := Erofs.tellsKinds codecs (s : Erofs).vol
    exact iff_of_true (htells.agree (Erofs.mount_holds hmount) hst hsu hrun verifier verifier'
      hmd htarget) not_false
  | cramfs =>
    exact iff_of_true ((Cramfs.tellsKinds codecs s).agree rfl hst hsu hrun verifier verifier'
      hmd htarget) not_false
  | romfs =>
    exact iff_of_true ((Romfs.tellsKinds s).agree rfl hst hsu hrun verifier verifier'
      hmd htarget) not_false
  | cpio =>
    exact iff_of_true ((Cpio.tellsKinds s).agree rfl hst hsu hrun verifier verifier'
      hmd htarget) not_false

theorem ownErrors (codecs : Codecs ρ) (verifier : Verifier) (member : Member) :
    OwnErrors (frontend codecs verifier member) := by
  cases member with
  | iso zisofs => exact Iso9660.ownErrors
  | udf => exact Udf.ownErrors
  | squashfs => exact SquashFs.ownErrors
  | erofs => exact Erofs.ownErrors
  | cramfs => exact Cramfs.ownErrors
  | romfs => exact Romfs.ownErrors
  | cpio => exact Cpio.ownErrors

/-- `metadata` and `readLink` agree on a node exactly when it is not a link whose target
no call has: a File Entry of UDF with the file type of symbolic links. `resolve` misses a
target in a run only where it meets such a node. -/
theorem symlink_iff_target (codecs : Codecs ρ) (readers : Cpio.Readers) (src : Source)
    (member : Member) {s t : member.Volume} (hmount : mount codecs readers src member = .ok s)
    (hst : member.Runs codecs s t) :
    (∀ verifier verifier' u t' u' node md target, member.Runs codecs s u →
      (member.Runs codecs t u ∨ member.Runs codecs u t) →
      exec ((frontend codecs verifier member).metadata node) t = (.ok md, t') →
      exec ((frontend codecs verifier' member).readLink node) u = (.ok target, u') →
        ((md.kind = .symlink ↔ target.isSome) ↔ ¬member.LinkLost t node)) ∧
    ∀ verifier path t',
      exec (resolve (frontend codecs verifier member) path) t = (.error missingTarget, t') →
        ∃ u node, member.Runs codecs t u ∧ member.LinkLost u node := by
  constructor
  · intro verifier verifier' u t' u' node md target hsu hrun hmd htarget
    exact symlink_iff_of_calls hmount hst hsu hrun hmd htarget
  · intro verifier path t' herror
    have hmissing := @resolve_missing _ _ (fun v => frontend codecs v member) verifier t t t'
      (ownErrors codecs verifier member) path .refl herror
    obtain ⟨node, md, u, v, w, htu, hmd, hkind, htarget⟩ := hmissing
    have huv := reaches_of_preserves
      ((keeps_reaches (fun v => frontend codecs v member) verifier u).metadata node) .refl hmd
    have hsu : member.Runs codecs s u := hst.trans htu
    have hiff := symlink_iff_of_calls hmount hsu (hsu.trans huv) (.inl huv) hmd htarget
    refine ⟨u, node, htu, Classical.byContradiction fun hlost => ?_⟩
    have hsome := (hiff.mpr hlost).mp hkind
    cases hsome

/-- The link of a mounted romfs volume, with a file read before the two calls. -/
theorem symlink_iff_target_letterLink :
    (FileKind.symlink = .symlink ↔ (some [(0x61 : UInt8)]).isSome) ↔
      ¬Member.romfs.LinkLost Romfs.letterMount 144 :=
  (symlink_iff_target noStreams Cpio.plainReaders Romfs.letterVolume .romfs
    Romfs.mount_letterVolume .refl).1 noVerifier noVerifier Romfs.letterMount _ _ 144
    ⟨.symlink, 1, 0⟩ (some [0x61]) (.call noVerifier (.readAt 64 0 [0]) .refl)
    (.inl (.call noVerifier (.readAt 64 0 [0]) .refl)) Romfs.metadata_letterLink
    Romfs.readLink_letterLink

end Member

namespace Udf

/-- How the File Entry of a symbolic link begins. -/
def symlinkEntry : List UInt8 :=
  [5, 1] ++ List.replicate 25 0 ++ [12] ++ List.replicate 6 0 ++ [3, 0]

/-- A volume of which the root is a symbolic link. -/
def symlinkRootSource : Source :=
  farSource (descriptors [1, 1, 0, 0] [2, 0, 0, 0] ++ [fileSet [3, 0, 0, 0], symlinkEntry])
    (by decide +kernel) (by decide)

/-- It opens, and its root is a symlink without a target. -/
theorem symlinkRoot_lost : ∃ u, mount symlinkRootSource = .ok u ∧
    exec (frontend.metadata 0) u = (.ok ⟨.symlink, 0, 0⟩, u) ∧
    exec (frontend.readLink 0) u = (.ok none, u) :=
  ⟨_, mount_rootEntry (by decide +kernel : parseFe 257 (sectorOf symlinkEntry) =
    .ok ⟨.symlink, 0, .inline []⟩), rfl, rfl⟩

end Udf

end Lamfold
