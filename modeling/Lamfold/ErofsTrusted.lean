import Lamfold.ErofsOffsets
import Lamfold.PathReading
import Lamfold.VerityMembership

/-!
Whole files read under a Merkle verifier. A read that succeeds has every block of the
file's data accepted in its place, so without a hash collision the data is the trusted file
wherever both have bytes. The size is the one that the inode declares, which no block hash
covers.
-/
namespace Lamfold.Erofs

open Effects Bytes HashTree Verity Lamfold.Path

variable {ρ : Type} {codecs : Codecs ρ}

theorem Shepherded.of_accepted {verifier : Verifier} {node : NodeId} {bs size off : ℕ}
    {events : List Event} (h : Shepherded verifier node bs size off events) {start : ℕ}
    {data : List UInt8} (haccepted : Accepted events start data) :
    verifier node start data = .ok () ∧ data.length = min bs (size - start) := by
  induction h with
  | nil => cases haccepted
  | verified _ _ _ hlen ih =>
    rcases List.mem_append.mp haccepted with hmem | hmem
    · exact ih hmem
    · have heq := List.mem_singleton.mp hmem
      injection heq with hstart hdata hanswer
      subst hstart hdata
      exact ⟨hanswer.symm, hlen⟩
  | surfaced _ _ _ _ _ ih =>
    rcases List.mem_append.mp haccepted with hmem | hmem
    · exact ih hmem
    · cases List.mem_singleton.mp hmem

section Window

variable {vol : Volume} {verifier : Verifier} {node : NodeId} {inode : Inode}
  {off stop blockStart : ℕ}

/-- What the verifier is shown is the data of the block it is shown for. -/
def Genuine (codecs : Codecs ρ) (vol : Volume) (inode : Inode) (events : List Event) : Prop :=
  ∀ start data answer, Event.verified start data answer ∈ events →
    blockData codecs vol inode start = .ok data

theorem Genuine.verified {events : List Event} (h : Genuine codecs vol inode events) {start : ℕ}
    {data : List UInt8} (hdata : blockData codecs vol inode start = .ok data)
    (answer : Outcome Unit) :
    Genuine codecs vol inode (events ++ [Event.verified start data answer]) := by
  intro start' data' answer' hmem
  rcases List.mem_append.mp hmem with hmem | hmem
  · exact h start' data' answer' hmem
  · cases List.mem_singleton.mp hmem
    exact hdata

theorem fillBlock_events (P : List Event → Prop) (blockLen : ℕ) :
    Preserves (fun w => P w.events) (fillBlock codecs node blockStart blockLen) := by
  refine Preserves.get_bind fun w _ => ?_
  refine Preserves.bind ?_ fun filled => fun _ h => h
  intro w' h
  rw [onVolume, exec_zoom]
  exact h

theorem surface_genuine (blockLen : ℕ) :
    Preserves (fun w => Genuine codecs vol inode w.events)
      (surface off stop blockStart blockLen) := by
  refine Preserves.ite ?_ (.pure _ _)
  refine Preserves.get_bind fun w hw => ?_
  refine Preserves.bind ?_ fun _ => .pure _ _
  intro _ _ start data answer hmem
  rcases List.mem_append.mp hmem with hmem | hmem
  · exact hw start data answer hmem
  · cases List.mem_singleton.mp hmem

/-- What the block loop shows the verifier, and the errors it can end in: those of reading the
data of a block and of the verifier. -/
theorem readBlocks_genuine {P : FoldError → Prop} {blockStart produced : ℕ} {w : Window}
    (hw : Filling codecs vol node inode w) (hevents : Genuine codecs vol inode w.events)
    (hsize : inode.size < 2 ^ 64) (hstop : stop ≤ inode.size)
    (hblocks : ∀ b, RaisesOnly P (blockData codecs vol inode b))
    (hverifier : ∀ start data, RaisesOnly P (verifier node start data)) :
    Genuine codecs vol inode
        (exec (readBlocks codecs verifier node vol off stop inode.size blockStart produced) w).2.events ∧
      RaisesOnly P
        (exec (readBlocks codecs verifier node vol off stop inode.size blockStart produced) w).1 := by
  rw [readBlocks]
  split
  · rename_i hlt
    obtain ⟨t, hfill, ht⟩ := exec_fillBlock_data hw (Nat.lt_of_lt_of_le hlt hstop) hsize
    have hfilled : Genuine codecs vol inode t.events :=
      (fillBlock_events (Genuine codecs vol inode) _).of_exec hevents hfill
    dsimp only
    rw [exec_bind, hfill]
    have herrors := hblocks blockStart
    cases hdata : blockData codecs vol inode blockStart with
    | error e =>
      refine ⟨hfilled, ?_⟩
      intro reported h
      cases h
      exact herrors _ hdata
    | ok data =>
      obtain ⟨ht, hblock⟩ := ht data hdata
      dsimp only [Except.map]
      rw [exec_bind, exec_verifyBlock, hblock]
      have hshown := hfilled.verified hdata (verifier node blockStart data)
      have hrefused := hverifier blockStart data
      cases hanswer : verifier node blockStart data with
      | error e =>
        rw [hanswer] at hshown
        refine ⟨hshown, ?_⟩
        intro reported h
        cases h
        exact hrefused _ hanswer
      | ok _ =>
        rw [hanswer] at hshown
        dsimp only
        obtain ⟨count, u, hsurface, hfs, hblock⟩ := exec_surface_ok off stop blockStart
          (min vol.blockSize (inode.size - blockStart))
          { t with events := t.events ++ [Event.verified blockStart data (.ok ())] }
        have hsurfaced : Genuine codecs vol inode u.events :=
          (surface_genuine _).of_exec hshown hsurface
        have hu : Filling codecs vol node inode u := by
          refine ⟨?_, ?_⟩
          · rw [hfs]
            exact ht.holds
          · rw [hblock]
            exact ht.block_length
        rw [exec_bind_of_ok hsurface, exec_bind, exec_lift]
        unfold u64 fits
        split_ifs
        · exact readBlocks_genuine hu hsurfaced hsize hstop hblocks hverifier
        · exact ⟨hsurfaced, .panic⟩
  · exact ⟨hevents, .ok _⟩
  termination_by stop - blockStart
  decreasing_by
    have hpos := vol.blockSize_pos
    omega

theorem readWindow_genuine {P : FoldError → Prop} {fs : Erofs} {buf : List UInt8}
    (hfs : Holds codecs vol fs) (hread : readInode vol node = .ok inode)
    (hkind : inode.kind ≠ .directory) (hblocks : ∀ b, RaisesOnly P (blockData codecs vol inode b))
    (hverifier : ∀ start data, RaisesOnly P (verifier node start data)) :
    HoldsInode codecs vol node inode (exec (readWindow codecs verifier node off) (.start fs buf)).2.fs ∧
      Genuine codecs vol inode
        (exec (readWindow codecs verifier node off) (.start fs buf)).2.events ∧
      RaisesOnly P (exec (readWindow codecs verifier node off) (.start fs buf)).1 := by
  have hready : Ready codecs vol (.start fs buf) := ⟨hfs, by simp [Window.start, hfs.vol_eq]⟩
  unfold readWindow DataPath.readWindow dataPath
  obtain ⟨u, hrun, hu, -, hevents⟩ := exec_parsedWindow hready hread _
  rw [hrun]
  have hnone : Genuine codecs vol inode u.events := by
    rw [hevents]
    intro start data answer h
    cases h
  rw [if_neg hkind]
  split
  · exact ⟨hu.holds, hnone, .ok _⟩
  · rw [exec_bind_of_ok (exec_get u), exec_bind, exec_lift]
    unfold u64 fits
    split_ifs
    · rw [hu.holds.vol_eq]
      refine ⟨?_, ?_⟩
      · exact (cacheKept_holdsInode codecs vol node inode).readBlocks verifier node vol _ _ _ _ _ u
          hu.holds
      · exact readBlocks_genuine hu hnone (readInode_bounded hread).size_lt (Nat.min_le_right ..)
          hblocks hverifier
    · exact ⟨hu.holds, hnone, .panic⟩

/-- When every block can be read and is accepted the loop goes through. -/
theorem exec_readBlocks_ok {blockStart produced : ℕ} {w : Window}
    (hw : Filling codecs vol node inode w) (hsize : inode.size < 2 ^ 63) (hstop : stop ≤ inode.size)
    (hdvd : vol.blockSize ∣ blockStart)
    (hblocks : ∀ b, vol.blockSize ∣ b → b < inode.size →
      ∃ data, blockData codecs vol inode b = .ok data ∧ verifier node b data = .ok ()) :
    ∃ n t, exec (readBlocks codecs verifier node vol off stop inode.size blockStart produced) w =
      (.ok n, t) := by
  rw [readBlocks]
  split
  · rename_i hlt
    obtain ⟨data, hdata, haccepted⟩ := hblocks blockStart hdvd (Nat.lt_of_lt_of_le hlt hstop)
    obtain ⟨t, hfill, ht⟩ := exec_fillBlock_data hw (Nat.lt_of_lt_of_le hlt hstop) (by omega)
    obtain ⟨ht, hblock⟩ := ht data hdata
    rw [hdata] at hfill
    obtain ⟨count, u, hsurface, hfs, hblock'⟩ := exec_surface_ok off stop blockStart
      (min vol.blockSize (inode.size - blockStart))
      { t with events := t.events ++ [Event.verified blockStart data (.ok ())] }
    have hverified : exec (verifyBlock verifier node blockStart
        (min vol.blockSize (inode.size - blockStart))) t =
        (.ok (), { t with events := t.events ++ [Event.verified blockStart data (.ok ())] }) := by
      rw [exec_verifyBlock, hblock, haccepted]
    have hu : Filling codecs vol node inode u := by
      refine ⟨?_, ?_⟩
      · rw [hfs]
        exact ht.holds
      · rw [hblock']
        exact ht.block_length
    have hbs := blockSize_le vol
    have hnext : u64 (blockStart + vol.blockSize) = .ok _ := fits_eq_ok.mpr ⟨by omega, rfl⟩
    dsimp only
    rw [exec_bind_of_ok hfill, exec_bind_of_ok hverified, exec_bind_of_ok hsurface,
      exec_bind_of_ok ((exec_lift _ _).trans (congrArg (·, _) hnext))]
    exact exec_readBlocks_ok hu hsize hstop (Nat.dvd_add hdvd (Nat.dvd_refl _)) hblocks
  · exact ⟨_, _, rfl⟩
  termination_by stop - blockStart
  decreasing_by
    have hpos := vol.blockSize_pos
    omega

theorem exec_readWhole_ok {fs : Erofs} (hfs : Holds codecs vol fs)
    (hread : readInode vol node = .ok inode) (hkind : inode.kind ≠ .directory)
    (hcap : inode.size ≤ maxBootFileBytes)
    (hblocks : ∀ b, vol.blockSize ∣ b → b < inode.size →
      ∃ data, blockData codecs vol inode b = .ok data ∧ verifier node b data = .ok ()) :
    ∃ r t, exec (readAt codecs verifier node 0 (List.replicate inode.size 0)) fs = (.ok r, t) := by
  have hmax : maxBootFileBytes < 2 ^ 63 := by decide
  have hready : Ready codecs vol (.start fs (List.replicate inode.size 0)) :=
    ⟨hfs, by simp [Window.start, hfs.vol_eq]⟩
  obtain ⟨n, w, hwindow⟩ : ∃ n w, exec (readWindow codecs verifier node 0)
      (.start fs (List.replicate inode.size 0)) = (.ok n, w) := by
    unfold readWindow DataPath.readWindow dataPath
    obtain ⟨u, hrun, hu, hubuf, -⟩ := exec_parsedWindow hready hread _
    have hstart : u.buf = List.replicate inode.size 0 := hubuf
    rw [hrun, if_neg hkind]
    split
    · exact ⟨_, _, rfl⟩
    · have hasked : u64 (0 + u.buf.length) = .ok _ :=
        fits_eq_ok.mpr ⟨by rw [hstart, List.length_replicate]; omega, rfl⟩
      rw [exec_bind_of_ok (exec_get u),
        exec_bind_of_ok ((exec_lift _ _).trans (congrArg (·, _) hasked)), hu.holds.vol_eq]
      exact exec_readBlocks_ok hu (by omega) (Nat.min_le_right ..) (Nat.dvd_mul_left ..) hblocks
  rw [exec_readAt, hwindow]
  exact ⟨_, _, rfl⟩

/-- A successful read of a file: how much it returns, and the block of the file's data that
each byte comes from, which the verifier accepted. -/
theorem readAt_ok {fs fs' : Erofs} {n : ℕ} {buf window : List UInt8} (hfs : Holds codecs vol fs)
    (hread : readInode vol node = .ok inode)
    (h : exec (readAt codecs verifier node off buf) fs = (.ok (n, window), fs')) :
    inode.kind ≠ .directory ∧ n = min (off + buf.length) inode.size - off ∧
      window.length = buf.length ∧
      ∀ start, vol.blockSize ∣ start → max off start < min (off + n) (start + vol.blockSize) →
        ∃ data, blockData codecs vol inode start = .ok data ∧ verifier node start data = .ok () ∧
          data.length = min vol.blockSize (inode.size - start) ∧
          ∀ i, start ≤ off + i → off + i < min (off + n) (start + vol.blockSize) →
            window[i]? = data[off + i - start]? := by
  have hkind : inode.kind ≠ .directory := by
    intro hdir
    have hready : Ready codecs vol (.start fs buf) := ⟨hfs, by simp [Window.start, hfs.vol_eq]⟩
    rw [exec_readAt] at h
    unfold readWindow DataPath.readWindow dataPath at h
    obtain ⟨u, hrun, -⟩ := exec_parsedWindow hready hread _
    rw [hrun, if_pos hdir] at h
    cases h
  have hreport := readWindow_report codecs verifier node off buf fs
  obtain ⟨hholds, hgenuine, -⟩ :=
    @readWindow_genuine _ codecs vol verifier node inode off (fun _ => True) fs buf hfs hread hkind
      (fun _ _ _ => trivial) (fun _ _ _ _ => trivial)
  rw [exec_readAt] at h
  rcases hrun : exec (readWindow codecs verifier node off) (.start fs buf) with ⟨_ | m, w⟩
  · rw [hrun] at h
    cases h
  · rw [hrun] at h hreport hholds hgenuine
    obtain ⟨hcount, rfl⟩ := Prod.mk.inj h
    obtain ⟨rfl, rfl⟩ := Prod.mk.inj (Except.ok.inj hcount)
    have hcomplete := hreport.complete m rfl
    have hsize : w.fs.fileSize node = inode.size := by
      rw [fileSize, hholds.cached]
      rfl
    refine ⟨hkind, hsize ▸ hcomplete.count, hcomplete.buf_length, ?_⟩
    intro start hdvd hlt
    rw [hfs.vol_eq] at hcomplete hreport
    obtain ⟨data, haccepted, hbytes⟩ := hcomplete.served start hdvd hlt
    obtain ⟨hanswer, hlen⟩ := hreport.shepherded.of_accepted haccepted
    rw [hsize] at hlen
    exact ⟨data, hgenuine _ _ _ haccepted, hanswer, hlen, hbytes⟩

end Window

theorem exec_metadata {vol : Volume} {fs : Erofs} {node : NodeId} {inode : Inode}
    (hfs : Holds codecs vol fs) (hread : readInode vol node = .ok inode) :
    ∃ md t, exec (metadata node) fs = (.ok md, t) ∧ Holds codecs vol t ∧ md.kind = inode.kind ∧
      md.size = inode.size := by
  obtain ⟨t, hrun, -, hcached⟩ := exec_parseInode hfs node
  rw [hread] at hrun
  have ht := hcached inode hread
  refine ⟨⟨inode.kind, inode.size, inode.mode &&& 0o7777⟩, t, ?_, ht.toHolds, rfl, rfl⟩
  unfold metadata
  rw [exec_bind_of_ok hrun, exec_bind_of_ok (exec_inode_cached ht)]
  rfl

theorem levelBlock_of_window {content data : List UInt8} {bs k : ℕ}
    (hlen : data.length = min bs (content.length - k * bs))
    (hbytes : ∀ i, k * bs ≤ 0 + i → 0 + i < min (0 + content.length) (k * bs + bs) →
      content[i]? = data[0 + i - k * bs]?) :
    levelBlock content bs k = data := by
  have hblock : (levelBlock content bs k).length = data.length := by
    unfold levelBlock
    rw [List.length_take, List.length_drop]
    omega
  refine List.ext_getElem? ?_
  intro j
  by_cases hj : j < data.length
  · have hbyte := hbytes (k * bs + j) (by omega) (by omega)
    unfold levelBlock
    rw [List.getElem?_take_of_lt (by omega), List.getElem?_drop, hbyte]
    congr 1
    omega
  · rw [List.getElem?_eq_none (by omega), List.getElem?_eq_none (by omega)]

section WholeFiles

variable {vol : Volume} {verifier : Verifier} {path : Str} {node : NodeId} {inode : Inode}
  {fs fs' : Erofs} {content : List UInt8}

theorem resolve_holds (hfs : Holds codecs vol fs) {r : Outcome NodeId}
    (h : exec (resolve (frontend codecs verifier) path) fs = (r, fs')) : Holds codecs vol fs' := by
  have hkeep := resolve_preserves ((cacheKept_holds codecs vol).frontend verifier) path fs hfs
  rwa [h] at hkeep

/-- A successful whole-file read returns as many bytes as the inode declares, and they are the
data of its blocks, each accepted in its place. -/
theorem readPath_accepted (hfs : Holds codecs vol fs)
    (h : exec (readPath (frontend codecs verifier) path) fs = (.ok content, fs')) :
    ∃ node t inode, exec (resolve (frontend codecs verifier) path) fs = (.ok node, t) ∧
      readInode vol node = .ok inode ∧ inode.kind ≠ .directory ∧ inode.size ≤ maxBootFileBytes ∧
      content.length = inode.size ∧
      ∀ k, k * vol.blockSize < content.length →
        blockData codecs vol inode (k * vol.blockSize) =
          .ok (levelBlock content vol.blockSize k) ∧
        verifier node (k * vol.blockSize) (levelBlock content vol.blockSize k) = .ok () := by
  obtain ⟨node, md, s₁, s₂, hnode, hmd, hkind, hcap, hloop⟩ := readPath_eq_ok h
  have hs₁ := resolve_holds hfs hnode
  obtain ⟨inode, -, hread, -, -⟩ := exec_parsed_eq_ok hs₁ hmd
  obtain ⟨md', t, hrun, hs₂, hkind', hsize⟩ := exec_metadata hs₁ hread
  obtain ⟨hmd', rfl⟩ := Prod.mk.inj (hrun.symm.trans hmd)
  obtain rfl := Except.ok.inj hmd'
  refine ⟨node, s₁, inode, hnode, hread, hkind' ▸ hkind, hsize ▸ hcap, ?_⟩
  rw [hsize] at hloop
  have hfirst : 0 < inode.size → ∀ n window u,
      exec ((frontend codecs verifier).readAt node 0 (List.replicate inode.size 0)) t =
        (.ok (n, window), u) → n = inode.size ∧ window.length = inode.size := by
    intro _ n window u hread'
    obtain ⟨-, hcount, hlen, -⟩ := readAt_ok hs₂ hread hread'
    rw [List.length_replicate] at hcount hlen
    exact ⟨by omega, hlen⟩
  have hdone := readLoop_of_first hfirst hloop
  by_cases hzero : inode.size = 0
  · rw [if_pos hzero] at hdone
    subst hdone
    exact ⟨hzero.symm, fun k hk => absurd hk (Nat.not_lt_zero _)⟩
  · rw [if_neg hzero] at hdone
    obtain ⟨-, -, hlen, hserved⟩ := readAt_ok hs₂ hread hdone
    rw [List.length_replicate] at hlen
    refine ⟨hlen, ?_⟩
    intro k hk
    have hbs := vol.blockSize_pos
    obtain ⟨data, hdata, hanswer, hdlen, hbytes⟩ :=
      hserved (k * vol.blockSize) (Nat.dvd_mul_left _ _) (by omega)
    rw [← hlen] at hbytes
    rw [levelBlock_of_window (by rw [hdlen, hlen]) hbytes]
    exact ⟨hdata, hanswer⟩

/-- A file within the cap is read when every block of it can be read and is accepted. -/
theorem readPath_ok (hfs : Holds codecs vol fs) {t : Erofs}
    (hnode : exec (resolve (frontend codecs verifier) path) fs = (.ok node, t))
    (hread : readInode vol node = .ok inode) (hkind : inode.kind ≠ .directory)
    (hcap : inode.size ≤ maxBootFileBytes)
    (hblocks : ∀ b, vol.blockSize ∣ b → b < inode.size →
      ∃ data, blockData codecs vol inode b = .ok data ∧ verifier node b data = .ok ()) :
    ∃ content u, exec (readPath (frontend codecs verifier) path) fs = (.ok content, u) ∧
      content.length = inode.size := by
  obtain ⟨md, u, hmd, hu, hkind', hsize⟩ := exec_metadata (resolve_holds hfs hnode) hread
  obtain ⟨⟨n, window⟩, u', hwhole⟩ := exec_readWhole_ok hu hread hkind hcap hblocks
  obtain ⟨-, hcount, hlen, -⟩ := readAt_ok hu hread hwhole
  rw [List.length_replicate] at hcount hlen
  obtain rfl : n = inode.size := by omega
  have htotal : exec (checkedFullReadLen md.size : Method Erofs ℕ) u = (.ok inode.size, u) := by
    rw [hsize, checkedFullReadLen_eq_ok.mpr ⟨hcap, rfl⟩]
    rfl
  have hfirst : 0 < inode.size → ∃ window u',
      exec ((frontend codecs verifier).readAt node 0 (List.replicate inode.size 0)) u =
        (.ok (inode.size, window), u') ∧ window.length = inode.size :=
    fun _ => ⟨window, u', hwhole, hlen⟩
  obtain ⟨content, v, hloop, hcontent⟩ := exec_readLoop_first hfirst
  have hfound : exec ((frontend codecs verifier).metadata node) t = (.ok md, u) := hmd
  refine ⟨content, v, ?_, hcontent⟩
  unfold readPath readNode
  rw [exec_bind_of_ok hnode, exec_bind_of_ok hfound, if_neg (hkind'.trans_ne hkind)]
  exact (exec_bind_of_ok htotal).trans hloop

end WholeFiles

/-- No verifier is asked on the way to a node. -/
theorem resolve_verifier (verifier verifier' : Verifier) (path : Str) :
    resolve (frontend codecs verifier) path = resolve (frontend codecs verifier') path := by
  apply resolve_congr <;> rfl

/-- The strings hashed to check each block of a file on its own. -/
def leafStrings (v : MerkleVerifier) (content : List UInt8) : List (List UInt8) :=
  (treeScheme v.saltPrefix v.blockSize).blocks content

/-- The inode is one of a file within the read cap, and all its data can be read and is, block
for block and up to padding, that of `genuine`. -/
structure PassesFor (codecs : Codecs ρ) (vol : Volume) (inode : Inode) (genuine : List UInt8) :
    Prop where
  file : inode.kind ≠ .directory
  cap : inode.size ≤ maxBootFileBytes
  blocks : ∀ b, vol.blockSize ∣ b → b < inode.size →
    ∃ data, blockData codecs vol inode b = .ok data ∧ IsBlockOf genuine vol.blockSize b data

/-- A file of which a verifier of `genuine` accepted all blocks passes for it, unless the blocks
collide. -/
theorem passesFor_of_accepted {sha256 : Sha256} {genuine salt content : List UInt8}
    {blockLog : UInt8} {v : MerkleVerifier} {vol : Volume} {node : NodeId} {inode : Inode}
    (hv : v.Trusts sha256 genuine blockLog salt) (hbs : v.blockSize = vol.blockSize)
    (hcollision : ¬Collision sha256 (leafStrings v content) (leafStrings v genuine))
    (hkind : inode.kind ≠ .directory) (hcap : inode.size ≤ maxBootFileBytes)
    (hlen : content.length = inode.size)
    (haccepted : ∀ k, k * vol.blockSize < content.length →
      blockData codecs vol inode (k * vol.blockSize) = .ok (levelBlock content vol.blockSize k) ∧
      v.verifyBlock sha256 node (k * vol.blockSize) (levelBlock content vol.blockSize k) = .ok ()) :
    PassesFor codecs vol inode genuine := by
  refine ⟨hkind, hcap, ?_⟩
  rintro b ⟨k, rfl⟩ hb
  rw [Nat.mul_comm, ← hlen] at hb
  obtain ⟨hdata, hok⟩ := haccepted k hb
  rw [Nat.mul_comm]
  refine ⟨_, hdata, k, rfl, ?_⟩
  rw [← hbs] at hb hok ⊢
  obtain ⟨hshort, hin, hhash⟩ := hv.verifyBlock_iff.mp hok
  refine ⟨hin, hshort, (zeroPadded_eq_iff v.saltPrefix).mpr ?_⟩
  by_contra hne
  have hpos := hv.blockSize_pos
  refine hcollision ⟨_, ?_, _, ?_, hne, hhash⟩
  · exact List.mem_map.mpr ⟨k, List.mem_range.mpr ((lt_divCeil_iff hpos).mpr hb), rfl⟩
  · exact List.mem_map.mpr ⟨k, List.mem_range.mpr ((lt_divCeil_iff hpos).mpr hin), rfl⟩

/-- Content of the genuine size that agrees with it block for block is genuine. -/
theorem eq_of_isBlockOf {genuine content : List UInt8} {bs : ℕ} (hbs : 0 < bs)
    (hlen : content.length = genuine.length)
    (h : ∀ k, k * bs < content.length → IsBlockOf genuine bs (k * bs) (levelBlock content bs k)) :
    content = genuine := by
  refine eq_of_levelBlocks hbs hlen ?_
  intro k hk
  obtain ⟨i, hi, -, -, hpad⟩ := h k ((lt_divCeil_iff hbs).mp hk)
  obtain rfl := Nat.eq_of_mul_eq_mul_right hbs hi
  refine (List.append_inj hpad ?_).1
  rw [levelBlock_length, levelBlock_length, hlen]

/-- In any state of a mounted volume a whole-file read under the verifier of `genuine` fails or
returns `genuine`, without a collision among the blocks hashed, exactly when no file that
passes for `genuine` and declares another size is at the path. -/
theorem readPath_genuine_iff {sha256 : Sha256} {src : Source} {mounted fs : Erofs}
    {genuine salt : List UInt8} {blockLog : UInt8} {v : MerkleVerifier} {path : Str}
    (hmount : mount src = .ok mounted) (hrun : Reaches (frontend codecs) mounted fs)
    (hover : MerkleVerifier.over sha256 genuine blockLog salt = .ok v)
    (hbs : v.blockSize = fs.vol.blockSize)
    (hcollision : ∀ content t,
      exec (readPath (frontend codecs (v.verifyBlock sha256)) path) fs = (.ok content, t) →
        ¬Collision sha256 (leafStrings v content) (leafStrings v genuine)) :
    ((∃ e, (exec (readPath (frontend codecs (v.verifyBlock sha256)) path) fs).1 = .error e) ∨
        (exec (readPath (frontend codecs (v.verifyBlock sha256)) path) fs).1 = .ok genuine) ↔
      ∀ node t inode, exec (resolve (frontend codecs noVerifier) path) fs = (.ok node, t) →
        readInode fs.vol node = .ok inode → PassesFor codecs fs.vol inode genuine →
          inode.size = genuine.length := by
  rw [resolve_verifier noVerifier (v.verifyBlock sha256)]
  have hv := MerkleVerifier.over_trusts hover
  have hfs : Holds codecs fs.vol fs := Opened.holds ⟨mounted, hmount, hrun⟩
  constructor
  · intro hresult node t inode hnode hread hpasses
    have hblocks : ∀ b, fs.vol.blockSize ∣ b → b < inode.size → ∃ data,
        blockData codecs fs.vol inode b = .ok data ∧ v.verifyBlock sha256 node b data = .ok () := by
      intro b hdvd hb
      obtain ⟨data, hdata, i, rfl, hin, hshort, hpad⟩ := hpasses.blocks b hdvd hb
      rw [← hbs] at hin hshort hpad
      have hinput := (zeroPadded_eq_iff v.saltPrefix).mp hpad
      have hok : v.verifyBlock sha256 node (i * v.blockSize) data = .ok () :=
        hv.verifyBlock_iff.mpr ⟨hshort, hin, congrArg sha256 hinput⟩
      rw [hbs] at hok
      exact ⟨data, hdata, hok⟩
    obtain ⟨content, u, hrun, hlen⟩ := readPath_ok hfs hnode hread hpasses.file hpasses.cap hblocks
    rw [hrun] at hresult
    rcases hresult with ⟨e, he⟩ | hgenuine
    · cases he
    · rw [← hlen, Except.ok.inj hgenuine]
  · intro hsizes
    rcases hrun : exec (readPath (frontend codecs (v.verifyBlock sha256)) path) fs with ⟨e | content, u⟩
    · exact .inl ⟨e, rfl⟩
    · obtain ⟨node, t, inode, hnode, hread, hkind, hcap, hlen, haccepted⟩ := readPath_accepted hfs hrun
      have hpasses := passesFor_of_accepted hv hbs (hcollision content u hrun) hkind hcap hlen haccepted
      have hsize := hlen.trans (hsizes node t inode hnode hread hpasses)
      refine .inr (congrArg Except.ok ?_)
      refine eq_of_isBlockOf fs.vol.blockSize_pos hsize ?_
      intro k hk
      obtain ⟨data, hdata, hblock⟩ := hpasses.blocks _ (Nat.dvd_mul_left _ k) (hlen ▸ hk)
      rwa [Except.ok.inj ((haccepted k hk).1.symm.trans hdata)]

/-- SHA-256 on the block of 512 bytes that starts with 0x28 and is zero otherwise, and on the
descriptors of the files of one and of two bytes in it. -/
def shortSha256 : Sha256 := fun bytes =>
  if bytes = 0x28 :: List.replicate 511 0 then
    ⟨[0xac, 0x81, 0xf2, 0xcc, 0x2a, 0x55, 0xf7, 0xef, 0xd4, 0x75, 0x99, 0xfd, 0x9f, 0x27, 0xd8,
      0x4e, 0x32, 0x29, 0xaf, 0x45, 0xa3, 0x47, 0xb8, 0xc3, 0x69, 0xcf, 0xf9, 0x4b, 0x22, 0xa9,
      0x06, 0x81], rfl⟩
  else if bytes[8]? = some 1 then
    ⟨[0x1d, 0x9e, 0x7b, 0x20, 0x0e, 0x2e, 0xd2, 0xdb, 0x2e, 0xd3, 0xe6, 0x0a, 0x0f, 0x05, 0x44,
      0xdb, 0xbd, 0xd0, 0x14, 0x2f, 0x04, 0xe1, 0x70, 0xde, 0xdc, 0x46, 0x3f, 0x8c, 0xcb, 0xbc,
      0x66, 0xb4], rfl⟩
  else
    ⟨[0xf2, 0x88, 0x4e, 0x56, 0x85, 0xea, 0xdc, 0x72, 0x47, 0xd5, 0x18, 0x22, 0x96, 0xe9, 0x79,
      0x23, 0xa6, 0x3c, 0x90, 0x79, 0x4c, 0x90, 0x7a, 0x61, 0x05, 0x6b, 0xbf, 0x95, 0x4d, 0xa8,
      0x05, 0x9f], rfl⟩

/-- The one-byte file is read under a verifier for `genuine`, whose block is its own. -/
theorem oneByte_read {genuine : List UInt8}
    (hread : (MerkleVerifier.over shortSha256 genuine 9 [] >>= fun v =>
      (exec (readNode (frontend emptyFrames (v.verifyBlock shortSha256)) 4) oneByteMount).1) =
        .ok [0x28])
    (hblocks : (treeScheme [] 512).blocks genuine = (treeScheme [] 512).blocks [0x28]) :
    ∃ v fs', MerkleVerifier.over shortSha256 genuine 9 [] = .ok v ∧
      v.blockSize = oneByteMount.vol.blockSize ∧
      exec (readPath (frontend emptyFrames (v.verifyBlock shortSha256)) []) oneByteMount =
        (.ok [0x28], fs') ∧
      ¬Collision shortSha256 (leafStrings v [0x28]) (leafStrings v genuine) := by
  obtain ⟨v, hover, hread⟩ := bind_eq_ok.mp hread
  have hv := MerkleVerifier.over_trusts hover
  obtain ⟨r, fs', hrun⟩ : ∃ r fs', exec (readNode (frontend emptyFrames (v.verifyBlock shortSha256)) 4)
    oneByteMount = (r, fs') := ⟨_, _, rfl⟩
  rw [hrun] at hread
  have hresult : r = .ok [0x28] := hread
  refine ⟨v, fs', hover, hv.blockSize_eq, ?_, ?_⟩
  · rw [exec_readPath_nil, ← hresult]
    exact hrun
  · have hsingle : ((treeScheme [] 512).blocks [0x28]).length = 1 := by decide +kernel
    have hsalt : v.saltPrefix = [] := hv.saltPrefix_eq
    have hsize : v.blockSize = 512 := hv.blockSize_eq
    unfold leafStrings
    rw [hsalt, hsize, hblocks]
    obtain ⟨only, honly⟩ := List.length_eq_one_iff.mp hsingle
    rw [honly]
    intro ⟨x, hx, y, hy, hne, _⟩
    apply hne
    rw [List.mem_singleton.mp hx, List.mem_singleton.mp hy]

/-- The read of the one-byte file as what it is. -/
theorem readPath_genuine_iff_oneByte :
    ∃ v : MerkleVerifier, MerkleVerifier.over shortSha256 [0x28] 9 [] = .ok v ∧
      ∀ node t inode,
        exec (resolve (frontend emptyFrames noVerifier) []) oneByteMount = (.ok node, t) →
        readInode oneByteMount.vol node = .ok inode →
        PassesFor emptyFrames oneByteMount.vol inode [0x28] → inode.size = [(0x28 : UInt8)].length := by
  obtain ⟨v, fs', hover, hsize, hread, hcollision⟩ := oneByte_read (by decide +kernel) rfl
  refine ⟨v, hover, ?_⟩
  refine (readPath_genuine_iff mount_oneByte .refl hover hsize ?_).mp (.inr (congrArg Prod.fst hread))
  intro content t h
  obtain rfl := Except.ok.inj (Prod.mk.inj (hread.symm.trans h)).1
  exact hcollision

/-- The trusted file has a zero byte more than the inode declares, and the read
succeeds without it. -/
theorem readPath_truncated :
    ∃ v fs', mount oneByteSource = .ok oneByteMount ∧
      MerkleVerifier.over shortSha256 [0x28, 0] 9 [] = .ok v ∧
      v.blockSize = oneByteMount.vol.blockSize ∧
      exec (readPath (frontend emptyFrames (v.verifyBlock shortSha256)) []) oneByteMount =
        (.ok [0x28], fs') ∧
      ¬Collision shortSha256 (leafStrings v [0x28]) (leafStrings v [0x28, 0]) := by
  obtain ⟨v, fs', hread⟩ := @oneByte_read [0x28, 0] (by decide +kernel) (by decide +kernel)
  exact ⟨v, fs', mount_oneByte, hread⟩

end Lamfold.Erofs
