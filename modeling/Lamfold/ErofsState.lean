import Lamfold.Erofs
import Lamfold.Runs

/-!
What the caches of a mounted EROFS volume hold. In every state a volume can be
in, a cached inode is the inode on the source and cached data is what that inode
decodes to, so a call that finds something in a cache sees what it would read.
-/
namespace Lamfold.Erofs

open Effects Bytes

variable {ρ : Type} {codecs : Codecs ρ}

/-- A fresh inode is put in its cache. -/
theorem exec_parseInode_of_ok {nid : NodeId} {fs fs' : Erofs} (h : withInode fs nid = .ok fs') :
    exec (parseInode nid) fs = (.ok (), fs') := by
  unfold parseInode
  rw [exec_bind, exec_get]
  dsimp only
  rw [exec_bind, exec_lift, h]
  rfl

/-- A cached inode is not read again. -/
theorem exec_parseInode_cached {nid : NodeId} {fs : Erofs} (h : fs.inodes.contains nid = true) :
    exec (parseInode nid) fs = (.ok (), fs) := exec_parseInode_of_ok (if_pos h)

theorem exec_parseInode_new {nid : NodeId} {fs : Erofs} (h : fs.inodes.contains nid = false) :
    exec (parseInode nid) fs =
      match readInode fs.vol nid with
      | .ok inode => (.ok (), { fs with inodes := fs.inodes.insert nid inode })
      | .error e => (.error e, fs) := by
  unfold parseInode withInode
  rw [exec_bind, exec_get]
  simp only [h, Bool.false_eq_true, if_false]
  rw [exec_bind, exec_lift]
  cases readInode fs.vol nid <;> rfl

theorem exec_inode (nid : NodeId) (fs : Erofs) :
    exec (inode nid) fs = (okOr fs.inodes[nid]? .notFound, fs) := by
  unfold inode
  rw [exec_bind, exec_get]
  exact exec_lift _ fs

/-- Cached data is not decoded again. -/
theorem exec_materialize_cached {nid : NodeId} {fs : Erofs}
    (h : fs.decoded.contains nid = true) :
    exec (materializeCompressed codecs nid) fs = (.ok (), fs) := by
  unfold materializeCompressed
  rw [exec_bind, exec_get]
  simp only [h, if_true]
  rfl

theorem exec_materialize_new {nid : NodeId} {fs : Erofs} {inode : Inode}
    (h : fs.decoded.contains nid = false) (hinode : fs.inodes[nid]? = some inode) :
    exec (materializeCompressed codecs nid) fs =
      match decodeInode codecs fs.vol inode with
      | .ok out => (.ok (), { fs with decoded := fs.decoded.insert nid out })
      | .error e => (.error e, fs) := by
  unfold materializeCompressed
  rw [exec_bind, exec_get]
  simp only [h, Bool.false_eq_true, if_false]
  rw [exec_bind, exec_inode, hinode]
  simp only [okOr]
  rw [exec_bind, exec_lift]
  cases decodeInode codecs fs.vol inode <;> rfl

theorem exec_materialize_missing {nid : NodeId} {fs : Erofs}
    (h : fs.decoded.contains nid = false) (hinode : fs.inodes[nid]? = none) :
    exec (materializeCompressed codecs nid) fs = (fail .notFound, fs) := by
  unfold materializeCompressed
  rw [exec_bind, exec_get]
  simp only [h, Bool.false_eq_true, if_false]
  rw [exec_bind, exec_inode, hinode]
  rfl

/-- The volume is `vol`, and its caches hold what the source says. -/
structure Holds (codecs : Codecs ρ) (vol : Volume) (fs : Erofs) : Prop where
  vol_eq : fs.vol = vol
  inodes : ∀ (nid : NodeId) (inode : Inode), fs.inodes[nid]? = some inode →
    readInode vol nid = .ok inode
  decoded : ∀ (nid : NodeId) (data : List UInt8), fs.decoded[nid]? = some data →
    ∃ inode, fs.inodes[nid]? = some inode ∧ decodeInode codecs vol inode = .ok data

theorem getElem?_insert {α : Type} (m : Std.TreeMap NodeId α) (nid other : NodeId) (a : α) :
    (m.insert nid a)[other]? = if nid = other then some a else m[other]? := by
  rw [Std.TreeMap.getElem?_insert]
  by_cases h : nid = other
  · rw [if_pos h, if_pos (Nat.compare_eq_eq.mpr h)]
  · rw [if_neg h, if_neg (fun hcmp => h (Nat.compare_eq_eq.mp hcmp))]

theorem Holds.insertInode {vol : Volume} {fs : Erofs} (h : Holds codecs vol fs) {nid : NodeId}
    {inode : Inode} (hnew : fs.inodes.contains nid = false) (hread : readInode vol nid = .ok inode) :
    Holds codecs vol { fs with inodes := fs.inodes.insert nid inode } := by
  refine ⟨h.vol_eq, ?_, ?_⟩
  · intro other found hfound
    simp only [getElem?_insert] at hfound
    split_ifs at hfound with heq
    · cases hfound
      exact heq ▸ hread
    · exact h.inodes other found hfound
  · intro other data hdata
    obtain ⟨found, hfound, hdecode⟩ := h.decoded other data hdata
    refine ⟨found, ?_, hdecode⟩
    have hne : nid ≠ other := by
      intro heq
      subst heq
      rw [Std.TreeMap.contains_eq_isSome_getElem?, hfound] at hnew
      cases hnew
    simp only [getElem?_insert, if_neg hne]
    exact hfound

theorem Holds.insertDecoded {vol : Volume} {fs : Erofs} (h : Holds codecs vol fs) {nid : NodeId}
    {inode : Inode} {data : List UInt8} (hinode : fs.inodes[nid]? = some inode)
    (hdecode : decodeInode codecs vol inode = .ok data) :
    Holds codecs vol { fs with decoded := fs.decoded.insert nid data } := by
  refine ⟨h.vol_eq, h.inodes, ?_⟩
  intro other found hfound
  simp only [getElem?_insert] at hfound
  split_ifs at hfound with heq
  · cases hfound
    exact ⟨inode, heq ▸ hinode, hdecode⟩
  · exact h.decoded other found hfound

/-- An inode is cached as the source has it. -/
theorem parseInode_holds (codecs : Codecs ρ) (vol : Volume) (nid : NodeId) :
    Preserves (Holds codecs vol) (parseInode nid) := by
  intro fs hfs
  cases hcached : fs.inodes.contains nid with
  | true =>
    rw [exec_parseInode_cached hcached]
    exact hfs
  | false =>
    rw [exec_parseInode_new hcached]
    cases hread : readInode fs.vol nid with
    | error e => exact hfs
    | ok inode => exact hfs.insertInode hcached (hfs.vol_eq ▸ hread)

/-- Data is cached as its inode decodes. -/
theorem materialize_holds (codecs : Codecs ρ) (vol : Volume) (nid : NodeId) :
    Preserves (Holds codecs vol) (materializeCompressed codecs nid) := by
  intro fs hfs
  cases hcached : fs.decoded.contains nid with
  | true =>
    rw [exec_materialize_cached hcached]
    exact hfs
  | false =>
    cases hinode : fs.inodes[nid]? with
    | none =>
      rw [exec_materialize_missing hcached hinode]
      exact hfs
    | some inode =>
      rw [exec_materialize_new hcached hinode]
      cases hdecode : decodeInode codecs fs.vol inode with
      | error e => exact hfs
      | ok data => exact hfs.insertDecoded hinode (hfs.vol_eq ▸ hdecode)

/-- What succeeds on an inode has parsed it, or found it parsed. -/
theorem exec_parsed_eq_ok {α : Type} {vol : Volume} {fs t : Erofs} {nid : NodeId}
    {f : Inode → Method Erofs α} {a : α} (hfs : Holds codecs vol fs)
    (h : exec (parseInode nid >>= fun _ => inode nid >>= f) fs = (.ok a, t)) :
    ∃ inode fs', readInode vol nid = .ok inode ∧ Holds codecs vol fs' ∧
      exec (f inode) fs' = (.ok a, t) := by
  obtain ⟨_, fs', hparse, h⟩ := exec_bind_eq_ok.mp h
  obtain ⟨inode, u, hinode, h⟩ := exec_bind_eq_ok.mp h
  rw [exec_inode] at hinode
  obtain ⟨hfound, rfl⟩ := Prod.mk.inj hinode
  have hholds := parseInode_holds codecs vol nid fs hfs
  rw [hparse] at hholds
  exact ⟨inode, fs', hholds.inodes nid inode (okOr_eq_ok.mp hfound), hholds, h⟩

/-- The inode of `node` is cached as `inode`, and blocks are `bs` bytes. -/
def Fixed (node : NodeId) (inode : Inode) (bs : ℕ) (fs : Erofs) : Prop :=
  fs.inodes[node]? = some inode ∧ fs.vol.blockSize = bs

/-- Another inode does not replace a cached one. -/
theorem parseInode_fixed {node : NodeId} {inode : Inode} {bs : ℕ} (nid : NodeId) :
    Preserves (Fixed node inode bs) (parseInode nid) := by
  intro fs hfs
  cases hcached : fs.inodes.contains nid with
  | true =>
    rw [exec_parseInode_cached hcached]
    exact hfs
  | false =>
    rw [exec_parseInode_new hcached]
    cases readInode fs.vol nid with
    | error e => exact hfs
    | ok found =>
      have hne : nid ≠ node := by
        intro heq
        subst heq
        rw [Std.TreeMap.contains_eq_isSome_getElem?, hfs.1] at hcached
        cases hcached
      exact ⟨(getElem?_insert _ _ _ _).trans ((if_neg hne).trans hfs.1), hfs.2⟩

theorem materialize_fixed {node : NodeId} {inode : Inode} {bs : ℕ} (codecs : Codecs ρ)
    (nid : NodeId) : Preserves (Fixed node inode bs) (materializeCompressed codecs nid) := by
  intro fs hfs
  cases hcached : fs.decoded.contains nid with
  | true =>
    rw [exec_materialize_cached hcached]
    exact hfs
  | false =>
    cases hinode : fs.inodes[nid]? with
    | none =>
      rw [exec_materialize_missing hcached hinode]
      exact hfs
    | some found =>
      rw [exec_materialize_new hcached hinode]
      cases decodeInode codecs fs.vol found with
      | error e => exact hfs
      | ok data => exact hfs

/-- The two operations that fill the caches keep `P`. -/
structure CacheKept (codecs : Codecs ρ) (P : Erofs → Prop) : Prop where
  parse : ∀ nid, Preserves P (parseInode nid)
  decode : ∀ nid, Preserves P (materializeCompressed codecs nid)

/-- What the caches hold is kept. -/
theorem cacheKept_holds (codecs : Codecs ρ) (vol : Volume) :
    CacheKept codecs (Holds codecs vol) :=
  ⟨parseInode_holds codecs vol, materialize_holds codecs vol⟩

theorem cacheKept_fixed (codecs : Codecs ρ) (node : NodeId) (inode : Inode) (bs : ℕ) :
    CacheKept codecs (Fixed node inode bs) :=
  ⟨parseInode_fixed, materialize_fixed codecs⟩

theorem inode_preserves (P : Erofs → Prop) (nid : NodeId) : Preserves P (inode nid) := by
  intro fs hfs
  rw [exec_inode]
  exact hfs

theorem onVolume_preserves {α : Type} {P : Erofs → Prop} {x : Method Erofs α}
    (hx : Preserves P x) : Preserves (fun w => P w.fs) (onVolume x) :=
  Preserves.zoom hx (fun _ hw => hw) (fun _ _ hfs _ => hfs)

theorem verifyBlock_preserves (P : Erofs → Prop) (verifier : Verifier) (node : NodeId)
    (blockStart blockLen : ℕ) :
    Preserves (fun w => P w.fs) (verifyBlock verifier node blockStart blockLen) := by
  intro w hw
  exact hw

theorem surface_preserves (P : Erofs → Prop) (off stop blockStart blockLen : ℕ) :
    Preserves (fun w => P w.fs) (surface off stop blockStart blockLen) := by
  intro w hw
  unfold surface
  dsimp only
  split
  · exact hw
  · exact hw

namespace CacheKept

variable {P : Erofs → Prop}

theorem readDecoded (hP : CacheKept codecs P) (nid : NodeId) (off stop : ℕ) :
    Preserves P (Erofs.readDecoded codecs nid off stop) := by
  refine Preserves.bind (hP.decode nid) ?_
  intro _
  refine Preserves.bind (Preserves.get _) ?_
  intro fs
  refine Preserves.bind (Preserves.lift _ _) ?_
  intro data
  exact Preserves.lift _ _

theorem readLayout (hP : CacheKept codecs P) (nid : NodeId) (inode : Inode) (off stop : ℕ) :
    Preserves P (Erofs.readLayout codecs nid inode off stop) := by
  refine Preserves.ite (hP.readDecoded nid off stop) ?_
  refine Preserves.bind (Preserves.get _) ?_
  intro fs
  exact Preserves.lift _ _

theorem readInodeData (hP : CacheKept codecs P) (nid : NodeId) (off : ℕ) (buf : List UInt8) :
    Preserves P (Erofs.readInodeData codecs nid off buf) := by
  refine Preserves.bind (inode_preserves P nid) ?_
  intro inode
  refine Preserves.ite (Preserves.pure _ _) ?_
  refine Preserves.bind (Preserves.lift _ _) ?_
  intro asked
  refine Preserves.bind (hP.readLayout nid inode off _) ?_
  intro seg
  exact Preserves.pure _ _

theorem readDir (hP : CacheKept codecs P) (dir : NodeId) :
    Preserves P (Erofs.readDir codecs dir) := by
  refine Preserves.bind (hP.parse dir) ?_
  intro _
  refine Preserves.bind (inode_preserves P dir) ?_
  intro inode
  refine Preserves.ite (Preserves.throw _ _) ?_
  refine Preserves.bind (Preserves.lift _ _) ?_
  intro size
  refine Preserves.bind (hP.readInodeData dir 0 _) ?_
  intro data
  refine Preserves.bind (Preserves.get _) ?_
  intro fs
  exact Preserves.lift _ _

theorem lookup (hP : CacheKept codecs P) (dir : NodeId) (name : Str) :
    Preserves P (Erofs.lookup codecs dir name) := by
  refine Preserves.bind (hP.readDir dir) ?_
  intro entries
  exact Preserves.pure _ _

theorem metadata (hP : CacheKept codecs P) (node : NodeId) : Preserves P (Erofs.metadata node) := by
  refine Preserves.bind (hP.parse node) ?_
  intro _
  refine Preserves.bind (inode_preserves P node) ?_
  intro inode
  exact Preserves.pure _ _

theorem readLink (hP : CacheKept codecs P) (node : NodeId) :
    Preserves P (Erofs.readLink codecs node) := by
  refine Preserves.bind (hP.parse node) ?_
  intro _
  refine Preserves.bind (inode_preserves P node) ?_
  intro inode
  refine Preserves.ite (Preserves.pure _ _) ?_
  refine Preserves.bind (Preserves.lift _ _) ?_
  intro len
  refine Preserves.bind (hP.readInodeData node 0 _) ?_
  intro target
  exact Preserves.pure _ _

theorem fillBlock (hP : CacheKept codecs P) (node : NodeId) (blockStart blockLen : ℕ) :
    Preserves (fun w => P w.fs) (Erofs.fillBlock codecs node blockStart blockLen) := by
  refine Preserves.bind (Preserves.get _) ?_
  intro w
  refine Preserves.bind (onVolume_preserves (hP.readInodeData node _ _)) ?_
  intro filled u hu
  exact hu

theorem readBlocks (hP : CacheKept codecs P) (verifier : Verifier) (node : NodeId) (blocks : Volume)
    (off stop size blockStart produced : ℕ) :
    Preserves (fun w => P w.fs)
      (Erofs.readBlocks codecs verifier node blocks off stop size blockStart produced) := by
  fun_induction Erofs.readBlocks (n := Id) codecs verifier node blocks off stop size blockStart
    produced with
  | case1 blockStart produced hlt blockLen ih =>
    refine Preserves.bind (hP.fillBlock node blockStart _) ?_
    intro _
    refine Preserves.bind (verifyBlock_preserves P verifier node blockStart _) ?_
    intro _
    refine Preserves.bind (surface_preserves P off stop blockStart _) ?_
    intro count
    refine Preserves.bind (Preserves.lift _ _) ?_
    intro _
    exact ih count
  | case2 blockStart produced hge => exact Preserves.pure _ _

theorem readWindow (hP : CacheKept codecs P) (verifier : Verifier) (node : NodeId) (off : ℕ) :
    Preserves (fun w => P w.fs) (Erofs.readWindow codecs verifier node off) := by
  refine Preserves.bind (onVolume_preserves (hP.parse node)) ?_
  intro _
  refine Preserves.bind (onVolume_preserves (inode_preserves P node)) ?_
  intro inode
  refine Preserves.ite (Preserves.throw _ _) ?_
  refine Preserves.ite (Preserves.pure _ _) ?_
  refine Preserves.bind (Preserves.get _) ?_
  intro w
  refine Preserves.bind (Preserves.lift _ _) ?_
  intro asked
  exact hP.readBlocks verifier node _ off _ _ _ _

theorem readAt (hP : CacheKept codecs P) (verifier : Verifier) (node : NodeId) (off : ℕ)
    (buf : List UInt8) : Preserves P (Erofs.readAt codecs verifier node off buf) := by
  intro fs hfs
  exact hP.readWindow verifier node off (.start fs buf) hfs

theorem frontend (hP : CacheKept codecs P) (verifier : Verifier) :
    (Erofs.frontend codecs verifier).Keeps P where
  lookup := hP.lookup
  readDir := hP.readDir
  metadata := hP.metadata
  readAt := hP.readAt verifier
  readLink := hP.readLink

end CacheKept

theorem holds_empty (vol : Volume) : Holds codecs vol ⟨vol, ∅, ∅⟩ := by
  refine ⟨rfl, ?_, ?_⟩
  · intro nid inode h
    rw [Std.TreeMap.getElem?_emptyc] at h
    cases h
  · intro nid data h
    rw [Std.TreeMap.getElem?_emptyc] at h
    cases h

/-- A mounted volume has the root in its cache. -/
theorem mount_holds {src : Source} {fs : Erofs} (h : mount src = .ok fs) :
    Holds codecs fs.vol fs := by
  obtain ⟨vol, -, h⟩ := bind_eq_ok.mp h
  have hparsed := parseInode_holds codecs vol vol.rootNid _ (holds_empty vol)
  rw [exec_parseInode_of_ok h] at hparsed
  rw [hparsed.vol_eq]
  exact hparsed

/-- A state that a volume opened from `src` can be in: after the mount, any calls
under any verifiers. -/
def Opened (codecs : Codecs ρ) (src : Source) (fs : Erofs) : Prop :=
  ∃ mounted, mount src = .ok mounted ∧ Reaches (frontend codecs) mounted fs

theorem Opened.holds {src : Source} {fs : Erofs} (h : Opened codecs src fs) :
    Holds codecs fs.vol fs := by
  obtain ⟨mounted, hmount, hrun⟩ := h
  have hholds := hrun.keeps (cacheKept_holds codecs mounted.vol).frontend (mount_holds hmount)
  rw [hholds.vol_eq]
  exact hholds

/-- A fresh mount has only the root inode in its caches. -/
theorem mount_eq_ok {src : Source} {vol : Volume} {inode : Inode}
    (hvol : openVolume src = .ok vol) (hinode : readInode vol vol.rootNid = .ok inode) :
    mount src = .ok ⟨vol, (∅ : Std.TreeMap NodeId Inode).insert vol.rootNid inode, ∅⟩ := by
  have hnew : (⟨vol, ∅, ∅⟩ : Erofs).inodes.contains vol.rootNid = false :=
    Std.TreeMap.contains_emptyc
  unfold mount withInode
  simp only [hvol, ok_bind, hnew, Bool.false_eq_true, if_false, hinode]
  rfl

/-- The root of a volume can be materialized when it decodes. -/
theorem materialize_root {src : Source} {vol : Volume} {inode : Inode} {buf : List UInt8}
    (hvol : openVolume src = .ok vol) (hinode : readInode vol vol.rootNid = .ok inode)
    (hdecode : decodeInode codecs vol inode = .ok buf) :
    ∃ fs fs', Opened codecs src fs ∧ fs.vol = vol ∧
      exec (materializeCompressed codecs vol.rootNid) fs = (.ok (), fs') ∧
      fs'.decoded[vol.rootNid]? = some buf := by
  have hmount := mount_eq_ok hvol hinode
  obtain ⟨fs, hfs⟩ : ∃ fs : Erofs, fs = ⟨vol, (∅ : Std.TreeMap NodeId Inode).insert vol.rootNid inode,
    ∅⟩ := ⟨_, rfl⟩
  have hroot : fs.inodes[vol.rootNid]? = some inode := by
    rw [hfs]
    exact (getElem?_insert _ _ _ _).trans (if_pos rfl)
  have hnew : fs.decoded.contains vol.rootNid = false := by
    rw [hfs]
    exact Std.TreeMap.contains_emptyc
  have hvol' : fs.vol = vol := by rw [hfs]
  refine ⟨fs, { fs with decoded := fs.decoded.insert vol.rootNid buf },
    ⟨fs, hfs ▸ hmount, .refl⟩, hvol', ?_, ?_⟩
  · rw [exec_materialize_new hnew hroot, hvol', hdecode]
  · exact (getElem?_insert _ _ _ _).trans (if_pos rfl)

end Lamfold.Erofs
