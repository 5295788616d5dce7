import Lamfold.ErofsState

/-!
Where the output of each pcluster lies in the decoded content of a compressed
file. The decode loop appends; the output is in place exactly when every zstd
frame fills its extent, the one length the decoders leave unchecked.
-/
namespace Lamfold.Erofs

open Effects Bytes

variable {ρ : Type} {codecs : Codecs ρ}

/-- The first pcluster starts at logical 0. -/
def StartsAtZero (heads : List Head) : Prop := ∀ h ∈ heads.head?, h.start = 0

theorem startsAtZero_nil : StartsAtZero [] := by
  intro h hh
  cases hh

theorem startsAtZero_append {heads : List Head} {start : ℕ} {ty : LcType} {blkaddr cblkcnt : ℕ}
    (hheads : StartsAtZero heads) (hstart : heads = [] → start = 0) :
    StartsAtZero (heads ++ [⟨start, ty, blkaddr, cblkcnt⟩]) := by
  intro h hh
  cases heads with
  | nil =>
    obtain rfl := Option.some.inj hh
    exact hstart rfl
  | cons first rest => exact hheads h hh

theorem headStart_zero {lcsize i clusterofs start : ℕ} {heads : List Head}
    (h : headStart lcsize heads i clusterofs = .ok start) : heads = [] → start = 0 := by
  intro hnil
  rw [headStart, if_pos hnil] at h
  exact (Except.ok.inj h).symm

theorem fullEntries_startsAtZero {src : Source} {idx0 lcsize i count : ℕ} {heads out : List Head}
    (hheads : StartsAtZero heads) (h : fullEntries src idx0 lcsize i count heads = .ok out) :
    StartsAtZero out := by
  induction count generalizing i heads with
  | zero =>
    obtain rfl : heads = out := Except.ok.inj h
    exact hheads
  | succ count ih =>
    obtain ⟨offset, -, h⟩ := bind_eq_ok.mp h
    obtain ⟨offset', -, h⟩ := bind_eq_ok.mp h
    obtain ⟨e, -, h⟩ := bind_eq_ok.mp h
    dsimp only at h
    split_ifs at h
    · exact ih hheads h
    · exact absurd h (fail_ne_ok _ _)
    · obtain ⟨start, hstart, h⟩ := bind_eq_ok.mp h
      exact ih (startsAtZero_append hheads (headStart_zero hstart)) h

theorem startsAtZero_set {heads : List Head} {i : ℕ} {head : Head} (cblkcnt : ℕ)
    (hheads : StartsAtZero heads) (hi : heads[i]? = some head) :
    StartsAtZero (heads.set i { head with cblkcnt := cblkcnt }) := by
  intro h hh
  cases heads with
  | nil => cases hh
  | cons first rest =>
    cases i with
    | zero =>
      obtain rfl := Option.some.inj hh
      obtain rfl : first = head := Option.some.inj hi
      exact hheads first rfl
    | succ i => exact hheads h hh

theorem resolveEntry_startsAtZero {lcsize i : ℕ} {big : Bool} {st st' : Resolving} {e : RawEntry}
    (hst : StartsAtZero st.heads) (h : resolveEntry lcsize big st e i = .ok st') :
    StartsAtZero st'.heads := by
  unfold resolveEntry at h
  split_ifs at h
  · cases hcur : st.curHead with
    | none =>
      rw [hcur] at h
      obtain rfl : st = st' := Except.ok.inj h
      exact hst
    | some k =>
      rw [hcur] at h
      obtain ⟨head, hhead, h⟩ := bind_eq_ok.mp h
      dsimp only at h
      split_ifs at h
      · exact absurd h (fail_ne_ok _ _)
      · cases h
        exact startsAtZero_set _ hst (unwrap_eq_ok.mp hhead)
  · obtain rfl : st = st' := Except.ok.inj h
    exact hst
  · obtain ⟨start, hstart, h⟩ := bind_eq_ok.mp h
    cases h
    exact startsAtZero_append hst (headStart_zero hstart)
  · obtain ⟨start, hstart, h⟩ := bind_eq_ok.mp h
    obtain ⟨blkaddr, -, h⟩ := bind_eq_ok.mp h
    cases h
    exact startsAtZero_append hst (headStart_zero hstart)

theorem placeBig_startsAtZero {blk : ℕ} {heads out : List Head} (hheads : StartsAtZero heads)
    (h : placeBig blk heads = .ok out) : StartsAtZero out := by
  intro first hfirst
  match heads, h with
  | [], h =>
    obtain rfl : [] = out := Except.ok.inj h
    cases hfirst
  | [head], h =>
    obtain rfl := Except.ok.inj h
    obtain rfl := Option.some.inj hfirst
    exact hheads head rfl
  | head :: next :: rest, h =>
    obtain ⟨blk', -, h⟩ := bind_eq_ok.mp h
    obtain ⟨placed, -, h⟩ := bind_eq_ok.mp h
    obtain rfl := Except.ok.inj h
    obtain rfl := Option.some.inj hfirst
    exact hheads head rfl

theorem resolveCompactHeads_startsAtZero {raw : List RawEntry} {lcsize advise : ℕ}
    {heads : List Head} (h : resolveCompactHeads raw lcsize advise = .ok heads) :
    StartsAtZero heads := by
  have hnil : StartsAtZero Resolving.init.heads := startsAtZero_nil
  obtain ⟨st, hst, h⟩ := bind_eq_ok.mp h
  have hstarts : StartsAtZero st.heads :=
    foldlM_keeps (P := fun st => StartsAtZero st.heads)
      (fun _ _ _ hmid h => resolveEntry_startsAtZero hmid h) hnil hst
  split_ifs at h
  · exact placeBig_startsAtZero hstarts h
  · obtain rfl := Except.ok.inj h
    exact hstarts

theorem buildHeads_startsAtZero {vol : Volume} {inode : Inode} {hdr : MapHeader} {mh : ℕ}
    {heads : List Head} (h : buildHeads vol inode hdr mh = .ok heads) : StartsAtZero heads := by
  unfold buildHeads at h
  dsimp only at h
  split_ifs at h
  · exact absurd h (fail_ne_ok _ _)
  · exact absurd h (fail_ne_ok _ _)
  · obtain ⟨idx0, -, h⟩ := bind_eq_ok.mp h
    exact fullEntries_startsAtZero startsAtZero_nil h
  · exact absurd h (fail_ne_ok _ _)
  · exact absurd h (fail_ne_ok _ _)
  · obtain ⟨ebase, -, h⟩ := bind_eq_ok.mp h
    obtain ⟨idxLen, -, h⟩ := bind_eq_ok.mp h
    obtain ⟨cap, -, h⟩ := bind_eq_ok.mp h
    obtain ⟨buf, -, h⟩ := bind_eq_ok.mp h
    obtain ⟨raw, -, h⟩ := bind_eq_ok.mp h
    exact resolveCompactHeads_startsAtZero h
  · exact absurd h (fail_ne_ok _ _)

theorem readHeads_startsAtZero {vol : Volume} {inode : Inode} {hdr : MapHeader}
    {heads : List Head} (h : readHeads vol inode = .ok (hdr, heads)) : StartsAtZero heads := by
  obtain ⟨mh, -, h⟩ := bind_eq_ok.mp h
  obtain ⟨-, -, h⟩ := bind_eq_ok.mp h
  obtain ⟨hdr', -, h⟩ := bind_eq_ok.mp h
  obtain ⟨heads', hheads, h⟩ := bind_eq_ok.mp h
  cases h
  exact buildHeads_startsAtZero hheads

/-- The extents of the pclusters follow one another up to the end of the file. -/
theorem decodeHeads_extents {vol : Volume} {hdr : MapHeader} {iSize : ℕ} {out buf : List UInt8}
    {heads : List Head} (hrun : decodeHeads codecs vol hdr iSize out heads = .ok buf) :
    nextStart iSize heads ≤ iSize ∧
      ∀ h rest, h :: rest <:+ heads → h.start ≤ nextStart iSize rest ∧
        nextStart iSize rest ≤ iSize := by
  induction heads generalizing out with
  | nil =>
    refine ⟨Nat.le_refl _, ?_⟩
    intro h rest hsuffix
    exact absurd (List.suffix_nil.mp hsuffix) (List.cons_ne_nil h rest)
  | cons head tail ih =>
    rw [decodeHeads] at hrun
    split_ifs at hrun with hlt hzero
    · exact absurd hrun (fail_ne_ok _ _)
    all_goals
      have htail : nextStart iSize tail ≤ iSize ∧ ∀ h rest, h :: rest <:+ tail →
          h.start ≤ nextStart iSize rest ∧ nextStart iSize rest ≤ iSize := by
        first
          | exact ih hrun
          | obtain ⟨seg, -, hrun⟩ := bind_eq_ok.mp hrun
            exact ih hrun
      have hle : head.start ≤ nextStart iSize tail := Nat.le_of_not_lt hlt
      refine ⟨Nat.le_trans hle htail.1, ?_⟩
      intro h rest hsuffix
      rcases List.suffix_cons_iff.mp hsuffix with heq | hsuffix
      · cases heq
        exact ⟨hle, htail.1⟩
      · exact htail.2 h rest hsuffix

/-- Every pcluster's bytes are what its own blocks decode to, with the bytes
before it as the prior output. -/
structure Placed (codecs : Codecs ρ) (vol : Volume) (hdr : MapHeader) (iSize : ℕ)
    (heads : List Head) (buf : List UInt8) : Prop where
  length : buf.length = iSize
  decoded : ∀ h rest, h :: rest <:+ heads → nextStart iSize rest ≠ h.start →
    decodeOwn codecs vol hdr h (nextStart iSize rest - h.start) (buf.take h.start) =
      .ok ((buf.drop h.start).take (nextStart iSize rest - h.start))

/-- Every zstd frame holds as much as its extent needs. -/
def FramesHold (codecs : Codecs ρ) (vol : Volume) (hdr : MapHeader) (iSize : ℕ)
    (heads : List Head) : Prop :=
  ∀ h rest, h :: rest <:+ heads → nextStart iSize rest ≠ h.start →
    Unchecked h.ty (hdr.algo h.ty) → ∀ span, readSpan vol h.blkaddr h.cblkcnt = .ok span →
      FrameHolds codecs span (nextStart iSize rest - h.start)

theorem decodeOwn_length_iff {vol : Volume} {hdr : MapHeader} {h : Head} {outlen : ℕ}
    {out seg : List UInt8} (hseg : decodeOwn codecs vol hdr h outlen out = .ok seg) :
    seg.length = outlen ↔ (Unchecked h.ty (hdr.algo h.ty) →
      ∀ span, readSpan vol h.blkaddr h.cblkcnt = .ok span → FrameHolds codecs span outlen) := by
  obtain ⟨span, hspan, hseg⟩ := bind_eq_ok.mp hseg
  rw [decodePcluster_length_iff hseg]
  constructor
  · intro hholds hun span' hspan'
    obtain rfl : span = span' := Except.ok.inj (hspan.symm.trans hspan')
    exact hholds hun
  · intro hholds hun
    exact hholds hun span hspan

/-- While the frames hold enough, the output so far ends where the next pcluster
starts. -/
theorem decodeHeads_placed {vol : Volume} {hdr : MapHeader} {iSize : ℕ} {out buf : List UInt8}
    {heads : List Head} (hrun : decodeHeads codecs vol hdr iSize out heads = .ok buf)
    (hout : out.length = nextStart iSize heads)
    (hframes : FramesHold codecs vol hdr iSize heads) :
    out <+: buf ∧ Placed codecs vol hdr iSize heads buf := by
  induction heads generalizing out with
  | nil =>
    obtain rfl : out = buf := Except.ok.inj hrun
    refine ⟨List.prefix_rfl, hout, ?_⟩
    intro h rest hsuffix
    exact absurd (List.suffix_nil.mp hsuffix) (List.cons_ne_nil h rest)
  | cons head tail ih =>
    have htailFrames : FramesHold codecs vol hdr iSize tail :=
      fun h rest hsuffix => hframes h rest (hsuffix.trans (List.suffix_cons head tail))
    have hstart : out.length = head.start := hout
    rw [decodeHeads] at hrun
    split_ifs at hrun with hlt hzero
    · exact absurd hrun (fail_ne_ok _ _)
    · obtain ⟨hinit, hplaced⟩ := ih hrun (by omega) htailFrames
      refine ⟨hinit, hplaced.length, ?_⟩
      intro h rest hsuffix hne
      rcases List.suffix_cons_iff.mp hsuffix with heq | hsuffix
      · cases heq
        omega
      · exact hplaced.decoded h rest hsuffix hne
    · obtain ⟨seg, hseg, hrun⟩ := bind_eq_ok.mp hrun
      have hlen : seg.length = nextStart iSize tail - head.start :=
        (decodeOwn_length_iff hseg).mpr (hframes head tail List.suffix_rfl (by omega))
      obtain ⟨hinit, hplaced⟩ := ih hrun
        (by rw [List.length_append]; omega) htailFrames
      obtain ⟨after, rfl⟩ := hinit
      refine ⟨⟨seg ++ after, by rw [List.append_assoc]⟩, hplaced.length, ?_⟩
      intro h rest hsuffix hne
      rcases List.suffix_cons_iff.mp hsuffix with heq | hsuffix
      · cases heq
        rw [List.append_assoc, ← hstart, List.take_left, List.drop_left, hstart,
          List.take_left' hlen]
        exact hseg
      · exact hplaced.decoded h rest hsuffix hne

theorem placed_iff {vol : Volume} {hdr : MapHeader} {iSize : ℕ} {buf : List UInt8}
    {heads : List Head} (hrun : decodeHeads codecs vol hdr iSize [] heads = .ok buf)
    (hne : heads ≠ []) (hzero : StartsAtZero heads) :
    Placed codecs vol hdr iSize heads buf ↔ FramesHold codecs vol hdr iSize heads := by
  constructor
  · intro hplaced h rest hsuffix hlen
    obtain ⟨hle, hend⟩ := (decodeHeads_extents hrun).2 h rest hsuffix
    apply (decodeOwn_length_iff (hplaced.decoded h rest hsuffix hlen)).mp
    rw [List.length_take, List.length_drop, hplaced.length]
    omega
  · intro hframes
    apply (decodeHeads_placed hrun ?_ hframes).2
    obtain ⟨head, tail, rfl⟩ := List.exists_cons_of_ne_nil hne
    exact (hzero head rfl).symm

/-- In every state of a volume, after a successful decode of an inode with a
pcluster the cached content is in place exactly when every zstd frame holds as
much as its extent needs. -/
theorem materialize_placed_iff {src : Source} {fs fs' : Erofs} {nid : NodeId} {inode : Inode}
    {hdr : MapHeader} {heads : List Head} {buf : List UInt8} (hopened : Opened codecs src fs)
    (hrun : exec (materializeCompressed codecs nid) fs = (.ok (), fs'))
    (hinode : readInode fs.vol nid = .ok inode)
    (hheads : readHeads fs.vol inode = .ok (hdr, heads)) (hne : heads ≠ [])
    (hbuf : fs'.decoded[nid]? = some buf) :
    Placed codecs fs.vol hdr inode.size heads buf ↔
      FramesHold codecs fs.vol hdr inode.size heads := by
  have hholds := materialize_holds codecs fs.vol nid fs hopened.holds
  rw [hrun] at hholds
  obtain ⟨found, hfound, hdecode⟩ := hholds.decoded nid buf hbuf
  obtain rfl : inode = found :=
    Except.ok.inj (hinode.symm.trans (hholds.inodes nid found hfound))
  rw [decodeInode, hheads] at hdecode
  exact placed_iff hdecode hne (readHeads_startsAtZero hheads)

/-- Decoders of which only zstd works, on frames of no content. -/
def emptyFrames : Codecs Unit where
  __ := noStreams
  zstdReader _ := some ()
  read reader _ := some ([], reader)
  read_le := by simp

/-- A superblock of 512-byte blocks whose root, inode 4, lies right after it. -/
def tinySuperblock : List UInt8 :=
  [0xE2, 0xE1, 0xF5, 0xE0] ++ List.replicate 8 0 ++ [9, 0, 4, 0] ++ List.replicate 24 0 ++
    [2, 0, 0, 0] ++ List.replicate 84 0

/-- A zstd frame of no content. -/
def emptyFrame : List UInt8 := [0x28, 0xB5, 0x2F, 0xFD, 0x20, 0, 1, 0, 0]

/-- A volume whose root is a regular file with a full index, and whose block 3 is
a zstd frame. -/
def tinyImage (size index frame : List UInt8) : List UInt8 :=
  List.replicate 1024 0 ++ tinySuperblock ++
    [2, 0, 0, 0, 0, 0x80, 0, 0] ++ size ++ List.replicate 20 0 ++
    [0, 0, 0, 0, 0, 0, 3, 0] ++ List.replicate 8 0 ++ index ++ List.replicate 320 0 ++ frame

def tinyVolume (src : Source) : Volume where
  src := src
  blkszbits := 9
  blkszbits_range := by decide
  lz4ZeroPadding := false
  metaOff := 1024
  rootNid := 4
  lzmaDictSize := none
  comprCfgsOff := 1152

/-- A zstd frame of one RLE block, of 512 bytes 0x41. -/
def rleFrame : List UInt8 := [0x28, 0xB5, 0x2F, 0xFD, 0x60, 0, 1, 3, 16, 0, 0x41]

theorem rle_read_le (left want : ℕ) (out : List UInt8) (left' : ℕ)
    (h : some (List.replicate (min left want) (0x41 : UInt8), left - min left want) =
      some (out, left')) : out.length ≤ want := by
  obtain ⟨rfl, -⟩ := Prod.mk.inj (Option.some.inj h)
  rw [List.length_replicate]
  exact Nat.min_le_right left want

/-- Decoders that know that frame; a reader is the number of bytes still to come. -/
def rleFrames : Codecs ℕ where
  __ := noStreams
  zstdReader input := if input = rleFrame then some 512 else none
  xzReader _ := 0
  lzmaReader _ _ _ _ := none
  read left want := some (List.replicate (min left want) 0x41, left - min left want)
  read_le := rle_read_le _ _ _ _

/-- A file of 513 bytes: a HEAD1 pcluster of 512 bytes, all of which its frame holds,
then a PLAIN one. -/
def rleSource : Source where
  content := tinyImage [1, 2, 0, 0] [1, 0, 0, 0, 3, 0, 0, 0, 0, 0, 0, 0, 3, 0, 0, 0] rleFrame
  length_lt := by decide +kernel

theorem frameHolds_rle : FrameHolds rleFrames rleFrame 512 := by
  have hstart : zstdStart rleFrame = some 0 := by decide
  intro start hmem reader hreader
  obtain rfl : 0 = start := Option.some.inj (hstart.symm.trans hmem)
  obtain rfl : 512 = reader := Option.some.inj hreader
  have hread : rleFrames.read 512 512 = some (List.replicate 512 0x41, 0) := rfl
  refine .chunk hread (List.cons_ne_nil _ _) ?_
  rw [List.length_replicate]
  exact .done 0

theorem materialize_placed_iff_rle :
    Placed rleFrames (tinyVolume rleSource) ⟨0, 3, 0⟩ 513
      [⟨0, .head1, 3, 1⟩, ⟨512, .plain, 3, 1⟩] (List.replicate 512 0x41 ++ [0x28]) := by
  have hvol : openVolume rleSource = .ok (tinyVolume rleSource) := by decide +kernel
  have hinode : readInode (tinyVolume rleSource) 4 =
      .ok ⟨.regular, 513, 0x8000, 1, 0, 1184⟩ := by decide +kernel
  have hheads : readHeads (tinyVolume rleSource) ⟨.regular, 513, 0x8000, 1, 0, 1184⟩ =
      .ok (⟨0, 3, 0⟩, [⟨0, .head1, 3, 1⟩, ⟨512, .plain, 3, 1⟩]) := by decide +kernel
  have hdecode : decodeInode rleFrames (tinyVolume rleSource)
      ⟨.regular, 513, 0x8000, 1, 0, 1184⟩ = .ok (List.replicate 512 0x41 ++ [0x28]) := by
    decide +kernel
  obtain ⟨fs, fs', hopened, hfs, hrun, hbuf⟩ := materialize_root hvol hinode hdecode
  rw [← hfs] at hinode hheads ⊢
  apply (materialize_placed_iff hopened hrun hinode hheads (List.cons_ne_nil _ _) hbuf).mpr
  intro h rest hsuffix _ hun span hspan
  rcases List.suffix_cons_iff.mp hsuffix with heq | hsuffix
  · cases heq
    have hframe : readSpan (tinyVolume rleSource) 3 1 = .ok rleFrame := by decide +kernel
    rw [hfs] at hspan
    obtain rfl : rleFrame = span := Except.ok.inj (hframe.symm.trans hspan)
    exact frameHolds_rle
  · rcases List.suffix_cons_iff.mp hsuffix with heq | hsuffix
    · cases heq
      rcases hun.1 with hty | hty
      · cases hty
      · cases hty
    · exact absurd (List.suffix_nil.mp hsuffix) (List.cons_ne_nil h rest)

/-- A file of one byte in a PLAIN pcluster. -/
def oneByteSource : Source where
  content := tinyImage [1, 0, 0, 0] [0, 0, 0, 0, 3, 0, 0, 0, 0, 0, 0, 0, 0, 0, 0, 0] emptyFrame
  length_lt := by decide +kernel

/-- The volume of the one-byte file, whose byte is 0x28, as it is after the mount. -/
def oneByteMount : Erofs :=
  ⟨tinyVolume oneByteSource,
    (∅ : Std.TreeMap NodeId Inode).insert 4 ⟨.regular, 1, 0x8000, 1, 0, 1184⟩, ∅⟩

theorem mount_oneByte : mount oneByteSource = .ok oneByteMount :=
  @mount_eq_ok _ (tinyVolume oneByteSource) _ (by decide +kernel) (by decide +kernel)

/-- A file of 513 bytes: a HEAD1 pcluster of 512 bytes, whose frame holds none,
then a PLAIN one. -/
def shortFrameSource : Source where
  content := tinyImage [1, 2, 0, 0] [1, 0, 0, 0, 3, 0, 0, 0, 0, 0, 0, 0, 3, 0, 0, 0] emptyFrame
  length_lt := by decide +kernel

/-- The second pcluster's byte ends up at offset 0, and no error is reported. -/
theorem materialize_shortFrame :
    ∃ fs fs', Opened emptyFrames shortFrameSource fs ∧
      exec (materializeCompressed emptyFrames 4) fs = (.ok (), fs') ∧
      readInode fs.vol 4 = .ok ⟨.regular, 513, 0x8000, 1, 0, 1184⟩ ∧
      readHeads fs.vol ⟨.regular, 513, 0x8000, 1, 0, 1184⟩ =
        .ok (⟨0, 3, 0⟩, [⟨0, .head1, 3, 1⟩, ⟨512, .plain, 3, 1⟩]) ∧
      fs'.decoded[4]? = some [0x28] ∧
      ¬Placed emptyFrames fs.vol ⟨0, 3, 0⟩ 513 [⟨0, .head1, 3, 1⟩, ⟨512, .plain, 3, 1⟩] [0x28] := by
  have hvol : openVolume shortFrameSource = .ok (tinyVolume shortFrameSource) := by
    decide +kernel
  have hinode : readInode (tinyVolume shortFrameSource) 4 =
      .ok ⟨.regular, 513, 0x8000, 1, 0, 1184⟩ := by decide +kernel
  have hheads : readHeads (tinyVolume shortFrameSource) ⟨.regular, 513, 0x8000, 1, 0, 1184⟩ =
      .ok (⟨0, 3, 0⟩, [⟨0, .head1, 3, 1⟩, ⟨512, .plain, 3, 1⟩]) := by decide +kernel
  have hdecode : decodeInode emptyFrames (tinyVolume shortFrameSource)
      ⟨.regular, 513, 0x8000, 1, 0, 1184⟩ = .ok [0x28] := by decide +kernel
  obtain ⟨fs, fs', hopened, hfs, hrun, hbuf⟩ := materialize_root hvol hinode hdecode
  rw [← hfs] at hinode hheads
  refine ⟨fs, fs', hopened, hrun, hinode, hheads, hbuf, ?_⟩
  intro hplaced
  exact absurd hplaced.length (by decide)

end Lamfold.Erofs
