import Lamfold.ErofsPlacement
import Lamfold.ErofsShepherd

/-!
What the caches of a mounted volume leave unchanged. In every state of a volume a
call computes what the source says of it, so two states of one volume give one
answer, whatever calls came before and whether they failed.
-/
namespace Lamfold.Erofs

open Effects Bytes

variable {ρ : Type} {codecs : Codecs ρ} {vol : Volume} {fs fs' : Erofs}

/-- Bytes `off..stop` of an inode's data, with nothing cached. -/
def layoutData (codecs : Codecs ρ) (vol : Volume) (inode : Inode) (off stop : ℕ) :
    Outcome (List UInt8) :=
  if inode.layout = compressedFull ∨ inode.layout = compressedCompact then do
    let data ← decodeInode codecs vol inode
    okOr (slice data off (stop - off)) (.corrupt "erofs: decoded read past end")
  else readFlat vol inode off stop

/-- What `read_inode_data` returns and leaves in the buffer, with nothing cached. -/
def inodeData (codecs : Codecs ρ) (vol : Volume) (inode : Inode) (off : ℕ) (buf : List UInt8) :
    Outcome (ℕ × List UInt8) :=
  if off ≥ inode.size then .ok (0, buf)
  else do
    let asked ← u64 (off + buf.length)
    let stop := min asked inode.size
    let seg ← layoutData codecs vol inode off stop
    return (stop - off, overwrite buf 0 seg)

/-- The volume is `vol`, its caches hold what the source says, and the inode of
`node` is among them. -/
structure HoldsInode (codecs : Codecs ρ) (vol : Volume) (node : NodeId) (inode : Inode)
    (fs : Erofs) : Prop extends Holds codecs vol fs where
  cached : fs.inodes[node]? = some inode

theorem cacheKept_holdsInode (codecs : Codecs ρ) (vol : Volume) (node : NodeId) (inode : Inode) :
    CacheKept codecs (HoldsInode codecs vol node inode) where
  parse nid fs hfs :=
    ⟨parseInode_holds codecs vol nid fs hfs.toHolds, (parseInode_fixed nid fs ⟨hfs.cached, rfl⟩).1⟩
  decode nid fs hfs :=
    ⟨materialize_holds codecs vol nid fs hfs.toHolds,
      (materialize_fixed codecs nid fs ⟨hfs.cached, rfl⟩).1⟩

section Reads

variable {node : NodeId} {inode : Inode}

theorem exec_inode_cached (h : HoldsInode codecs vol node inode fs) :
    exec (Erofs.inode node) fs = (.ok inode, fs) := by
  rw [exec_inode, h.cached]
  rfl

/-- After decoding, or finding the inode decoded, the cache has its data. -/
theorem exec_materialize (hfs : HoldsInode codecs vol node inode fs) :
    ∃ fs', exec (materializeCompressed codecs node) fs =
        ((decodeInode codecs vol inode).map fun _ => (), fs') ∧
      ∀ data, decodeInode codecs vol inode = .ok data → fs'.decoded[node]? = some data := by
  cases hcached : fs.decoded.contains node with
  | true =>
    rw [Std.TreeMap.contains_eq_isSome_getElem?] at hcached
    obtain ⟨data, hdata⟩ := Option.isSome_iff_exists.mp hcached
    obtain ⟨found, hfound, hdecode⟩ := hfs.decoded node data hdata
    obtain rfl : found = inode := Option.some.inj (hfound.symm.trans hfs.cached)
    refine ⟨fs, ?_, ?_⟩
    · rw [exec_materialize_cached (Std.TreeMap.contains_eq_isSome_getElem?.trans hcached), hdecode]
      rfl
    · intro data' hdata'
      rw [hdecode] at hdata'
      cases hdata'
      exact hdata
  | false =>
    obtain rfl := hfs.vol_eq
    rw [exec_materialize_new hcached hfs.cached]
    cases hdecode : decodeInode codecs fs.vol inode with
    | error e => exact ⟨fs, rfl, fun data hdata => nomatch hdata⟩
    | ok data =>
      refine ⟨{ fs with decoded := fs.decoded.insert node data }, rfl, ?_⟩
      intro data' hdata'
      cases hdata'
      exact (getElem?_insert _ _ _ _).trans (if_pos rfl)

theorem readDecoded_run (hfs : HoldsInode codecs vol node inode fs) (off stop : ℕ) :
    (exec (readDecoded codecs node off stop) fs).1 = (do
      let data ← decodeInode codecs vol inode
      okOr (slice data off (stop - off)) (.corrupt "erofs: decoded read past end")) := by
  obtain ⟨fs', hrun, hdata⟩ := exec_materialize hfs
  unfold readDecoded
  rw [exec_bind, hrun]
  cases hdecode : decodeInode codecs vol inode with
  | error e => rfl
  | ok data =>
    rw [hdecode] at hdata
    dsimp only [Except.map]
    rw [exec_bind_of_ok (exec_get fs'), hdata data rfl]
    rfl

theorem readLayout_run (hfs : HoldsInode codecs vol node inode fs) (off stop : ℕ) :
    (exec (readLayout codecs node inode off stop) fs).1 = layoutData codecs vol inode off stop := by
  unfold readLayout layoutData
  split_ifs
  · exact readDecoded_run hfs off stop
  · rw [exec_bind_of_ok (exec_get fs), hfs.vol_eq]
    rfl

theorem readInodeData_run (hfs : HoldsInode codecs vol node inode fs) (off : ℕ)
    (buf : List UInt8) :
    (exec (readInodeData codecs node off buf) fs).1 = inodeData codecs vol inode off buf := by
  unfold readInodeData inodeData
  rw [exec_bind_of_ok (exec_inode_cached hfs), exec_ite]
  split_ifs
  · rfl
  · rw [exec_bind, exec_lift]
    cases u64 (off + buf.length) with
    | error e => rfl
    | ok asked =>
      have hrun := readLayout_run hfs off (min asked inode.size)
      dsimp only
      rw [exec_bind, ok_bind, ← hrun]
      rcases exec (readLayout codecs node inode off (min asked inode.size)) fs with ⟨e | seg, t⟩ <;>
        rfl

end Reads

/-- What the caches of both hold is what the source of `vol` says. -/
def BothHold (codecs : Codecs ρ) (vol : Volume) (fs fs' : Erofs) : Prop :=
  Holds codecs vol fs ∧ Holds codecs vol fs'

def BothHoldInode (codecs : Codecs ρ) (vol : Volume) (node : NodeId) (inode : Inode)
    (fs fs' : Erofs) : Prop :=
  HoldsInode codecs vol node inode fs ∧ HoldsInode codecs vol node inode fs'

/-- Two reads in progress that differ in their caches alone. -/
structure WindowsAgree (R : Erofs → Erofs → Prop) (w w' : Window) : Prop where
  volumes : R w.fs w'.fs
  buf : w.buf = w'.buf
  block : w.block = w'.block
  events : w.events = w'.events

/-- The result of parsing is what the source says, and the inode is cached then. -/
theorem exec_parseInode (hfs : Holds codecs vol fs) (node : NodeId) :
    ∃ fs', exec (parseInode node) fs = ((readInode vol node).map fun _ => (), fs') ∧
      Holds codecs vol fs' ∧
        ∀ inode, readInode vol node = .ok inode → HoldsInode codecs vol node inode fs' := by
  have hholds := parseInode_holds codecs vol node fs hfs
  cases hcached : fs.inodes.contains node with
  | true =>
    rw [Std.TreeMap.contains_eq_isSome_getElem?] at hcached
    obtain ⟨found, hfound⟩ := Option.isSome_iff_exists.mp hcached
    have hread := hfs.inodes node found hfound
    refine ⟨fs, ?_, hfs, ?_⟩
    · rw [exec_parseInode_cached (Std.TreeMap.contains_eq_isSome_getElem?.trans hcached), hread]
      rfl
    · intro inode hinode
      rw [hread] at hinode
      cases hinode
      exact ⟨hfs, hfound⟩
  | false =>
    obtain rfl := hfs.vol_eq
    rw [exec_parseInode_new hcached] at hholds ⊢
    cases hread : readInode fs.vol node with
    | error e => exact ⟨fs, rfl, hfs, fun inode hinode => nomatch hinode⟩
    | ok inode =>
      rw [hread] at hholds
      refine ⟨_, rfl, hholds, ?_⟩
      intro inode' hinode
      cases hinode
      exact ⟨hholds, (getElem?_insert _ _ _ _).trans (if_pos rfl)⟩

section Calls

variable {α : Type} {node : NodeId}

theorem agree_onVolume {R : Erofs → Erofs → Prop} {x : Method Erofs α} (hx : Agree R x x) :
    Agree (WindowsAgree R) (onVolume x) (onVolume x) := by
  intro w w' h
  obtain ⟨hres, hrel⟩ := hx w.fs w'.fs h.volumes
  exact ⟨hres, ⟨hrel, h.buf, h.block, h.events⟩⟩

/-- The inode that parsing finds, in two states that then both have it cached. -/
theorem parsed_agree (h : BothHold codecs vol fs fs') (node : NodeId) :
    (∃ e t t', exec (parseInode node) fs = (.error e, t) ∧
        exec (parseInode node) fs' = (.error e, t') ∧ BothHold codecs vol t t') ∨
      ∃ inode t t', exec (parseInode node) fs = (.ok (), t) ∧
        exec (parseInode node) fs' = (.ok (), t') ∧ BothHoldInode codecs vol node inode t t' := by
  obtain ⟨t, hrun, ht, hinode⟩ := exec_parseInode h.1 node
  obtain ⟨t', hrun', ht', hinode'⟩ := exec_parseInode h.2 node
  cases hread : readInode vol node with
  | error e =>
    rw [hread] at hrun hrun'
    exact .inl ⟨e, t, t', hrun, hrun', ht, ht'⟩
  | ok inode =>
    rw [hread] at hrun hrun'
    exact .inr ⟨inode, t, t', hrun, hrun', hinode inode hread, hinode' inode hread⟩

/-- What starts by parsing an inode goes on alike with that inode. -/
theorem agree_parsed {f : Inode → Method Erofs α}
    (hf : ∀ inode, Agree (BothHoldInode codecs vol node inode) (f inode) (f inode)) :
    Agree (BothHold codecs vol) (parseInode node >>= fun _ => inode node >>= f)
      (parseInode node >>= fun _ => inode node >>= f) := by
  intro fs fs' h
  obtain ⟨e, t, t', hrun, hrun', ht⟩ | ⟨found, t, t', hrun, hrun', ht⟩ := parsed_agree h node
  · rw [exec_bind_of_error hrun, exec_bind_of_error hrun']
    exact ⟨rfl, ht⟩
  · rw [exec_bind_of_ok hrun, exec_bind_of_ok hrun', exec_bind_of_ok (exec_inode_cached ht.1),
      exec_bind_of_ok (exec_inode_cached ht.2)]
    obtain ⟨hres, hrel⟩ := hf found t t' ht
    exact ⟨hres, hrel.1.toHolds, hrel.2.toHolds⟩

theorem agree_readInodeData (inode : Inode) (off : ℕ) (buf : List UInt8) :
    Agree (BothHoldInode codecs vol node inode) (readInodeData codecs node off buf)
      (readInodeData codecs node off buf) := by
  intro fs fs' h
  have hkeep := (cacheKept_holdsInode codecs vol node inode).readInodeData node off buf
  refine ⟨?_, hkeep fs h.1, hkeep fs' h.2⟩
  rw [readInodeData_run h.1, readInodeData_run h.2]

theorem agree_readDir (dir : NodeId) :
    Agree (BothHold codecs vol) (readDir codecs dir) (readDir codecs dir) := by
  refine agree_parsed fun inode => ?_
  refine Agree.ite (fun _ => Agree.throw _) fun _ => ?_
  refine Agree.bind (Agree.lift _) fun size => ?_
  refine Agree.bind (agree_readInodeData inode 0 _) fun data => ?_
  intro fs fs' h
  rw [exec_bind_of_ok (exec_get fs), exec_bind_of_ok (exec_get fs'), h.1.vol_eq, h.2.vol_eq]
  exact ⟨rfl, h⟩

theorem agree_lookup (dir : NodeId) (name : Str) :
    Agree (BothHold codecs vol) (lookup codecs dir name) (lookup codecs dir name) :=
  Agree.bind (agree_readDir dir) fun _ => Agree.pure _

theorem agree_metadata : Agree (BothHold codecs vol) (metadata node) (metadata node) :=
  agree_parsed fun _ => Agree.pure _

theorem agree_readLink :
    Agree (BothHold codecs vol) (readLink codecs node) (readLink codecs node) := by
  refine agree_parsed fun inode => ?_
  refine Agree.ite (fun _ => Agree.pure _) fun _ => ?_
  refine Agree.bind (Agree.lift _) fun len => ?_
  exact Agree.bind (agree_readInodeData inode 0 _) fun _ => Agree.pure _

section Windows

variable {verifier : Verifier} {inode : Inode} {off stop blockStart blockLen : ℕ}

theorem agree_fillBlock :
    Agree (WindowsAgree (BothHoldInode codecs vol node inode))
      (fillBlock codecs node blockStart blockLen) (fillBlock codecs node blockStart blockLen) := by
  intro w w' h
  unfold fillBlock
  rw [exec_bind_of_ok (exec_get w), exec_bind_of_ok (exec_get w'), h.block]
  refine Agree.bind (agree_onVolume (agree_readInodeData inode blockStart _)) (fun r => ?_) w w' h
  intro u u' hu
  exact ⟨rfl, hu.volumes, hu.buf, congrArg (overwrite · 0 r.2) hu.block, hu.events⟩

theorem agree_verifyBlock {R : Erofs → Erofs → Prop} :
    Agree (WindowsAgree R) (verifyBlock verifier node blockStart blockLen)
      (verifyBlock verifier node blockStart blockLen) := by
  intro w w' h
  rw [exec_verifyBlock, exec_verifyBlock, h.block, h.events]
  exact ⟨rfl, h.volumes, h.buf, rfl, rfl⟩

theorem agree_surface {R : Erofs → Erofs → Prop} :
    Agree (WindowsAgree R) (surface off stop blockStart blockLen)
      (surface off stop blockStart blockLen) := by
  refine Agree.ite (fun _ => ?_) fun _ => Agree.pure _
  intro w w' h
  rw [exec_bind_of_ok (exec_get w), exec_bind_of_ok (exec_get w'), h.block, h.buf, h.events]
  exact ⟨rfl, h.volumes, rfl, rfl, rfl⟩

theorem agree_readBlocks {size produced : ℕ} :
    Agree (WindowsAgree (BothHoldInode codecs vol node inode))
      (readBlocks codecs verifier node vol off stop size blockStart produced)
      (readBlocks codecs verifier node vol off stop size blockStart produced) := by
  fun_induction readBlocks (n := Id) codecs verifier node vol off stop size blockStart produced with
  | case1 blockStart produced hlt blockLen =>
    rename_i ih
    refine Agree.bind agree_fillBlock fun _ => ?_
    refine Agree.bind agree_verifyBlock fun _ => ?_
    refine Agree.bind agree_surface fun count => ?_
    exact Agree.bind (Agree.lift _) fun _ => ih count
  | case2 blockStart produced hge => exact Agree.pure _

/-- The parsing that a window starts with, as in `agree_parsed`. -/
theorem agree_parsedWindow {f : Inode → Method Window α}
    (hf : ∀ inode,
      Agree (WindowsAgree (BothHoldInode codecs vol node inode)) (f inode) (f inode)) :
    Agree (WindowsAgree (BothHold codecs vol))
      (onVolume (parseInode node) >>= fun _ => onVolume (Erofs.inode node) >>= f)
      (onVolume (parseInode node) >>= fun _ => onVolume (Erofs.inode node) >>= f) := by
  intro w w' h
  obtain ⟨e, t, t', hrun, hrun', ht⟩ | ⟨found, t, t', hrun, hrun', ht⟩ :=
    parsed_agree h.volumes node
  · have hzoom : ∀ (v : Window) (u : Erofs), exec (parseInode node) v.fs = (.error e, u) →
        exec (onVolume (parseInode node)) v = (.error e, { v with fs := u }) := by
      intro v u hv
      rw [onVolume, exec_zoom, hv]
    rw [exec_bind_of_error (hzoom w t hrun), exec_bind_of_error (hzoom w' t' hrun')]
    exact ⟨rfl, ht, h.buf, h.block, h.events⟩
  · have hzoom : ∀ (v : Window) (u : Erofs), exec (parseInode node) v.fs = (.ok (), u) →
        exec (onVolume (parseInode node)) v = (.ok (), { v with fs := u }) := by
      intro v u hv
      rw [onVolume, exec_zoom, hv]
    have hinode : ∀ v : Window, HoldsInode codecs vol node found v.fs →
        exec (onVolume (Erofs.inode node)) v = (.ok found, v) := by
      intro v hv
      rw [onVolume, exec_zoom, exec_inode_cached hv]
    rw [exec_bind_of_ok (hzoom w t hrun), exec_bind_of_ok (hzoom w' t' hrun'),
      exec_bind_of_ok (hinode _ ht.1), exec_bind_of_ok (hinode _ ht.2)]
    obtain ⟨hres, hrel⟩ := hf found { w with fs := t } { w' with fs := t' }
      ⟨ht, h.buf, h.block, h.events⟩
    exact ⟨hres, ⟨hrel.volumes.1.toHolds, hrel.volumes.2.toHolds⟩, hrel.buf, hrel.block, hrel.events⟩

theorem agree_readWindow :
    Agree (WindowsAgree (BothHold codecs vol)) (readWindow codecs verifier node off)
      (readWindow codecs verifier node off) := by
  refine agree_parsedWindow fun inode => ?_
  refine Agree.ite (fun _ => Agree.throw _) fun _ => ?_
  refine Agree.ite (fun _ => Agree.pure _) fun _ => ?_
  intro w w' h
  rw [exec_bind_of_ok (exec_get w), exec_bind_of_ok (exec_get w'), h.buf, h.volumes.1.vol_eq,
    h.volumes.2.vol_eq]
  exact Agree.bind (Agree.lift _) (fun asked => agree_readBlocks) w w' h

end Windows

end Calls

/-- Two reads of a window from two states of one volume: the same outcome, the same
bytes written and the same blocks shown to the verifier. -/
theorem readWindow_agree (h : BothHold codecs vol fs fs') (verifier : Verifier) (node : NodeId)
    (off : ℕ) (buf : List UInt8) :
    (exec (readWindow codecs verifier node off) (.start fs buf)).1 =
        (exec (readWindow codecs verifier node off) (.start fs' buf)).1 ∧
      WindowsAgree (BothHold codecs vol)
        (exec (readWindow codecs verifier node off) (.start fs buf)).2
        (exec (readWindow codecs verifier node off) (.start fs' buf)).2 := by
  refine agree_readWindow _ _ ⟨h, rfl, ?_, rfl⟩
  unfold Window.start
  rw [h.1.vol_eq, h.2.vol_eq]

/-- In every state a mounted volume can reach, whatever calls failed on the way, the
caches hold what the source says, and every call has the outcome, and every read
leaves the bytes, that it has when made first. -/
theorem history_unobservable (codecs : Codecs ρ) {src : Source} {fs t : Erofs}
    (hmount : mount src = .ok fs) (hrun : Reaches (frontend codecs) fs t) :
    Holds codecs fs.vol t ∧
      (∀ verifier call, (frontend codecs verifier).SameOutcome call t fs) ∧
        ∀ verifier node off buf,
          let r := exec (readWindow codecs verifier node off) (.start t buf)
          let first := exec (readWindow codecs verifier node off) (.start fs buf)
          r.1 = first.1 ∧ r.2.buf = first.2.buf ∧ r.2.events = first.2.events := by
  have hfs : Holds codecs fs.vol fs := mount_holds hmount
  have ht := hrun.keeps (cacheKept_holds codecs fs.vol).frontend hfs
  have hboth : BothHold codecs fs.vol t fs := ⟨ht, hfs⟩
  refine ⟨ht, ?_, ?_⟩
  · intro verifier call
    cases call with
    | lookup dir name => exact (agree_lookup dir name t fs hboth).1
    | readDir dir => exact (agree_readDir dir t fs hboth).1
    | metadata node => exact (agree_metadata t fs hboth).1
    | readAt node off buf =>
      obtain ⟨hres, hagree⟩ := readWindow_agree hboth verifier node off buf
      have hcount : ∀ u, (exec (readAt codecs verifier node off buf) u).1 =
          (exec (readWindow codecs verifier node off) (.start u buf)).1.map fun n =>
            (n, (exec (readWindow codecs verifier node off) (.start u buf)).2.buf) := fun _ => rfl
      exact (hcount t).trans (by rw [hres, hagree.buf]; exact (hcount fs).symm)
    | readLink node => exact (agree_readLink t fs hboth).1
  · intro verifier node off buf
    obtain ⟨hres, hagree⟩ := readWindow_agree hboth verifier node off buf
    exact ⟨hres, hagree.buf, hagree.events⟩

/-- After a read of the one-byte file, which filled both caches. -/
theorem history_unobservable_oneByte :
    Holds emptyFrames oneByteMount.vol
        ((frontend emptyFrames noVerifier).after (.readAt 4 0 [0]) oneByteMount) ∧
      ((frontend emptyFrames noVerifier).after (.readAt 4 0 [0]) oneByteMount).decoded[4]? =
        some [0x28] ∧
      ∀ verifier call, (frontend emptyFrames verifier).SameOutcome call
        ((frontend emptyFrames noVerifier).after (.readAt 4 0 [0]) oneByteMount) oneByteMount := by
  have h := history_unobservable emptyFrames mount_oneByte (.call noVerifier (.readAt 4 0 [0]) .refl)
  exact ⟨h.1, by decide +kernel, h.2.1⟩

end Lamfold.Erofs
