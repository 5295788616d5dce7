import Lamfold.Cramfs
import Lamfold.Answers

/-!
What the pages of a cramfs file hold, and that reads are answered. The inode
declares a size, but each page gives what it inflates to, and a read slices the
pages at an offset that was only compared with the declared size.
-/
namespace Lamfold.Cramfs

open Effects Bytes

variable {ρ : Type} {codecs : Codecs ρ} {src : Source}

/-- What the image has for a page: its compressed bytes, or nothing for a hole. -/
def storedPage (src : Source) (start stop : ℕ) : Outcome (Option (List UInt8)) :=
  if stop ≤ start then .ok none
  else do
    let comp ← src.readAt start (stop - start)
    return some comp

/-- The pages from page `i` on, which starts at `start`. -/
def storedPages (src : Source) (idx : List UInt8) (nblocks i start : ℕ) :
    Outcome (List (Option (List UInt8))) :=
  if i < nblocks then do
    let stop ← ptr idx i
    let page ← storedPage src start stop
    let rest ← storedPages src idx nblocks (i + 1) stop
    return page :: rest
  else .ok []
  termination_by nblocks - i

/-- What a page inflates to when `want` bytes are asked for. -/
def inflatePage (codecs : Codecs ρ) (page : Option (List UInt8)) (want : ℕ) :
    Option (List UInt8) :=
  match page with
  | none => some (List.replicate want 0)
  | some comp => codecs.inflateZlib comp want

/-- What the last pages of a file inflate to, each asked for a page or what is
still missing of the file. -/
def inflatePages (codecs : Codecs ρ) : List (Option (List UInt8)) → ℕ → Option (List UInt8)
  | [], _ => some []
  | stored :: rest, missing => do
    let data ← inflatePage codecs stored (min page missing)
    let more ← inflatePages codecs rest (missing - data.length)
    return data ++ more

/-- The pages of a file can be read and inflated, to `n` bytes in all. -/
def PagesHold (codecs : Codecs ρ) (src : Source) (inode : CrInode) (n : ℕ) : Prop :=
  ∃ idx pages data, src.readAt inode.dataOff (divCeil inode.size page * 4) = .ok idx ∧
    storedPages src idx (divCeil inode.size page) 0
      (inode.dataOff + divCeil inode.size page * 4) = .ok pages ∧
    inflatePages codecs pages inode.size = some data ∧ data.length = n

theorem inflatePage_le {stored : Option (List UInt8)} {want : ℕ} {data : List UInt8}
    (h : inflatePage codecs stored want = some data) : data.length ≤ want := by
  cases stored with
  | none =>
    obtain rfl := Option.some.inj h
    rw [List.length_replicate]
  | some comp => exact codecs.inflateZlib_le h

theorem readPage_eq_ok {start stop want : ℕ} {data : List UInt8} (hwant : want ≤ page) :
    readPage codecs src start stop want = .ok data ↔
      ∃ stored, storedPage src start stop = .ok stored ∧
        inflatePage codecs stored want = some data := by
  have hcap : checkedBlockLen want = .ok want := by
    refine checkedBlockLen_eq_ok.mpr ⟨?_, rfl⟩
    unfold page at hwant
    unfold maxDecompressedBlockBytes
    omega
  unfold readPage storedPage
  by_cases hhole : stop ≤ start
  · simp only [if_pos hhole]
    constructor
    · intro h
      exact ⟨none, rfl, congrArg some (Except.ok.inj h)⟩
    · rintro ⟨stored, hstored, h⟩
      obtain rfl := Except.ok.inj hstored
      exact congrArg Except.ok (Option.some.inj h)
  · simp only [if_neg hhole]
    constructor
    · intro h
      obtain ⟨comp, hcomp, h⟩ := bind_eq_ok.mp h
      refine ⟨some comp, bind_eq_ok.mpr ⟨comp, hcomp, rfl⟩, ?_⟩
      rw [decode, hcap, ok_bind] at h
      exact okOr_eq_ok.mp h
    · rintro ⟨stored, hstored, h⟩
      obtain ⟨comp, hcomp, hsome⟩ := bind_eq_ok.mp hstored
      obtain rfl := Except.ok.inj hsome
      refine bind_eq_ok.mpr ⟨comp, hcomp, ?_⟩
      rw [decode, hcap, ok_bind]
      exact okOr_eq_ok.mpr h

theorem inflatePages_cons {stored : Option (List UInt8)} {rest : List (Option (List UInt8))}
    {missing : ℕ} {more : List UInt8} :
    inflatePages codecs (stored :: rest) missing = some more ↔
      ∃ data tail, inflatePage codecs stored (min page missing) = some data ∧
        inflatePages codecs rest (missing - data.length) = some tail ∧ more = data ++ tail := by
  rw [inflatePages]
  constructor
  · intro h
    obtain ⟨data, hdata, h⟩ := Option.bind_eq_some_iff.mp h
    obtain ⟨tail, htail, h⟩ := Option.bind_eq_some_iff.mp h
    exact ⟨data, tail, hdata, htail, (Option.some.inj h).symm⟩
  · rintro ⟨data, tail, hdata, htail, rfl⟩
    exact Option.bind_eq_some_iff.mpr ⟨data, hdata, Option.bind_eq_some_iff.mpr ⟨tail, htail, rfl⟩⟩

theorem inflatePages_le {pages : List (Option (List UInt8))} {missing : ℕ} {data : List UInt8}
    (h : inflatePages codecs pages missing = some data) : data.length ≤ missing := by
  induction pages generalizing missing data with
  | nil =>
    obtain rfl := Option.some.inj h
    exact Nat.zero_le missing
  | cons stored rest ih =>
    obtain ⟨first, tail, hfirst, htail, rfl⟩ := inflatePages_cons.mp h
    have hle := inflatePage_le hfirst
    have hle' := ih htail
    rw [List.length_append]
    omega

/-- The page loop appends what the pages left inflate to. -/
theorem readPages_eq_ok {idx out data : List UInt8} {total nblocks i start : ℕ} :
    readPages codecs src idx total nblocks i start out = .ok data ↔
      ∃ pages more, storedPages src idx nblocks i start = .ok pages ∧
        inflatePages codecs pages (total - out.length) = some more ∧ data = out ++ more := by
  fun_induction readPages codecs src idx total nblocks i start out with
  | case1 i start out hi ih =>
    rw [storedPages, if_pos hi]
    constructor
    · intro h
      obtain ⟨stop, hstop, h⟩ := bind_eq_ok.mp h
      obtain ⟨bytes, hbytes, h⟩ := bind_eq_ok.mp h
      obtain ⟨stored, hstored, hinflate⟩ := (readPage_eq_ok (Nat.min_le_left ..)).mp hbytes
      obtain ⟨pages, more, hpages, hmore, rfl⟩ := (ih stop bytes).mp h
      rw [List.length_append, Nat.sub_add_eq] at hmore
      refine ⟨stored :: pages, bytes ++ more, ?_, ?_, List.append_assoc ..⟩
      · exact bind_eq_ok.mpr ⟨stop, hstop, bind_eq_ok.mpr ⟨stored, hstored,
          bind_eq_ok.mpr ⟨pages, hpages, rfl⟩⟩⟩
      · exact inflatePages_cons.mpr ⟨bytes, more, hinflate, hmore, rfl⟩
    · rintro ⟨pages, more, h, hmore, rfl⟩
      obtain ⟨stop, hstop, h⟩ := bind_eq_ok.mp h
      obtain ⟨stored, hstored, h⟩ := bind_eq_ok.mp h
      obtain ⟨rest, hrest, h⟩ := bind_eq_ok.mp h
      obtain rfl := Except.ok.inj h
      obtain ⟨bytes, tail, hbytes, htail, rfl⟩ := inflatePages_cons.mp hmore
      rw [Nat.sub_sub, ← List.length_append] at htail
      have hpage := (readPage_eq_ok (Nat.min_le_left ..)).mpr ⟨stored, hstored, hbytes⟩
      refine bind_eq_ok.mpr ⟨stop, hstop, bind_eq_ok.mpr ⟨bytes, hpage, ?_⟩⟩
      exact (ih stop bytes).mpr ⟨rest, tail, hrest, htail, (List.append_assoc ..).symm⟩
  | case2 i start out hi =>
    rw [storedPages, if_neg hi]
    constructor
    · intro h
      obtain rfl := Except.ok.inj h
      exact ⟨[], [], rfl, rfl, (List.append_nil _).symm⟩
    · rintro ⟨pages, more, hpages, hmore, rfl⟩
      obtain rfl := Except.ok.inj hpages
      obtain rfl := Option.some.inj hmore
      rw [List.append_nil]
      rfl

theorem parseInode_bounds {off : ℕ} {inode : CrInode} (h : parseInode src off = .ok inode) :
    inode.size < 2 ^ 24 ∧ inode.dataOff < 2 ^ 28 ∧ inode.namelen < 2 ^ 8 := by
  obtain ⟨b, hb, h⟩ := bind_eq_ok.mp h
  obtain rfl := Except.ok.inj h
  have hlen : (b.drop 8).length = 4 := by
    rw [List.length_drop, Source.readAt_length hb]
  have hw : leNat (b.drop 8) < 256 ^ 4 := hlen ▸ leNat_lt (b.drop 8)
  have hsize : leNat ((b.drop 4).take 4) &&& 0x00FFFFFF ≤ 0x00FFFFFF := Nat.and_le_right
  have hname : leNat (b.drop 8) &&& 0x3F ≤ 0x3F := Nat.and_le_right
  have hoff : leNat (b.drop 8) >>> 6 = leNat (b.drop 8) / 2 ^ 6 := Nat.shiftRight_eq_div_pow _ _
  dsimp only
  refine ⟨by omega, by omega, by omega⟩

/-- A file is read whole exactly when its pages can be read and inflated. -/
theorem readWhole_length_iff {inode : CrInode} {n : ℕ} (hpos : 0 < inode.size)
    (hsize : inode.size < 2 ^ 24) (hoff : inode.dataOff < 2 ^ 28) :
    (∃ data, readWhole codecs src inode = .ok data ∧ data.length = n) ↔
      PagesHold codecs src inode n := by
  have hcap : checkedFullReadLen inode.size = .ok inode.size := by
    refine checkedFullReadLen_eq_ok.mpr ⟨?_, rfl⟩
    unfold maxBootFileBytes
    omega
  have hceil : divCeil inode.size page ≤ inode.size := by
    unfold divCeil page
    omega
  have hstart : u64 (inode.dataOff + divCeil inode.size page * 4) =
      .ok (inode.dataOff + divCeil inode.size page * 4) := fits_eq_ok.mpr ⟨by omega, rfl⟩
  unfold readWhole PagesHold
  rw [hcap, lift_ok_bind, if_neg (by omega)]
  constructor
  · rintro ⟨data, h, hn⟩
    obtain ⟨idx, hidx, h⟩ := bind_eq_ok.mp h
    rw [hstart, lift_ok_bind] at h
    obtain ⟨out, hout, h⟩ := bind_eq_ok.mp h
    obtain rfl := Except.ok.inj h
    obtain ⟨pages, more, hpages, hmore, rfl⟩ := readPages_eq_ok.mp hout
    have hle := inflatePages_le hmore
    refine ⟨idx, pages, out, hidx, hpages, hmore, ?_⟩
    rw [List.length_take] at hn
    rw [List.length_nil] at hle
    omega
  · rintro ⟨idx, pages, more, hidx, hpages, hmore, hn⟩
    have hle := inflatePages_le hmore
    refine ⟨more.take inode.size, ?_, by rw [List.length_take]; omega⟩
    refine bind_eq_ok.mpr ⟨idx, hidx, ?_⟩
    rw [hstart, lift_ok_bind]
    exact bind_eq_ok.mpr ⟨more, readPages_eq_ok.mpr ⟨pages, more, hpages, hmore, rfl⟩, rfl⟩

theorem answered_parseInode (src : Source) (off : ℕ) : Answered (parseInode src off) :=
  (answered_readAt ..).bind fun _ _ => trivial

theorem answered_readPages {idx out : List UInt8} {total nblocks i start : ℕ}
    (hidx : idx.length = nblocks * 4) :
    Answered (readPages codecs src idx total nblocks i start out) := by
  fun_induction readPages codecs src idx total nblocks i start out with
  | case1 i start out hi ih =>
    have hptr : Answered (ptr idx i) := by
      refine Answered.bind (answered_unwrap.mpr ?_) fun _ _ => trivial
      rw [ne_eq, slice_eq_none]
      omega
    refine hptr.bind ?_
    intro stop _
    refine Answered.bind (Answered.ite (fun _ => trivial) fun _ => ?_) ?_
    · exact (answered_readAt ..).bind fun comp _ => answered_decode
    · intro data _
      exact ih stop data
  | case2 i start out hi => trivial

theorem answered_readWhole (codecs : Codecs ρ) (src : Source) (inode : CrInode) :
    Answered (readWhole codecs src inode) := by
  refine Answered.bind (answered_checkedLen ..) ?_
  intro total _
  refine Answered.ite (fun _ => trivial) fun _ => ?_
  refine Answered.bind (answered_readAt ..) ?_
  intro idx hidx
  have hle := Source.readAt_le hidx
  have hlt := src.length_lt
  refine Answered.bind (answered_fits.mpr (Nat.lt_of_le_of_lt hle hlt)) ?_
  intro start _
  exact (answered_readPages (Source.readAt_length hidx)).bind fun _ _ => trivial

theorem answered_readRecords {stop p : ℕ} (hstop : stop < 2 ^ 32) :
    Answered (readRecords src stop p) := by
  fun_induction readRecords src stop p with
  | case1 p hp ih =>
    refine (answered_parseInode src p).bind ?_
    intro child hchild
    obtain ⟨-, -, hname⟩ := parseInode_bounds hchild
    refine Answered.bind (answered_fits.mpr (by omega)) ?_
    intro nameOff _
    refine Answered.bind (answered_readAt ..) ?_
    intro name _
    refine Answered.bind (answered_fits.mpr (by omega)) ?_
    intro _ _
    exact (ih child).bind fun _ _ => trivial
  | case2 p hp => trivial

theorem answered_readDir (c : Cramfs) (dir : NodeId) : Answered (c.readDir dir) := by
  refine (answered_parseInode ..).bind ?_
  intro inode hinode
  obtain ⟨hsize, hoff, -⟩ := parseInode_bounds hinode
  refine Answered.ite (fun _ => trivial) fun _ => ?_
  refine Answered.bind (answered_fits.mpr (by omega)) ?_
  intro stop hstop
  obtain ⟨-, rfl⟩ := fits_eq_ok.mp hstop
  exact answered_readRecords (by omega)

/-- The offset of a read below the declared size lies in what the pages of the
file hold, when they can all be read and inflated. -/
def OffsetStored (codecs : Codecs ρ) (src : Source) (node : NodeId) (off : ℕ) : Prop :=
  ∀ inode, parseInode src node = .ok inode → kind inode.mode ≠ .directory → off < inode.size →
    ∀ n, PagesHold codecs src inode n → off ≤ n

theorem answered_readAt_iff {c : Cramfs} {node : NodeId} {off : ℕ} {buf : List UInt8} :
    Answered (c.readAt codecs node off buf) ↔ OffsetStored codecs c.src node off := by
  unfold readAt OffsetStored
  rw [answered_bind]
  constructor
  · rintro ⟨-, h⟩ inode hinode hkind hoff n hn
    obtain ⟨hsize, hdata, -⟩ := parseInode_bounds hinode
    obtain ⟨data, hwhole, rfl⟩ := (readWhole_length_iff (by omega) hsize hdata).mpr hn
    have h := h inode hinode
    rw [if_neg hkind, if_neg (by omega), hwhole, ok_bind, answered_bind, lift_self,
      answered_unwrap] at h
    have hslice := h.1
    rw [ne_eq, slice_eq_none] at hslice
    omega
  · intro h
    refine ⟨answered_parseInode .., ?_⟩
    intro inode hinode
    obtain ⟨hsize, hdata, -⟩ := parseInode_bounds hinode
    refine Answered.ite (fun _ => trivial) fun hkind => ?_
    refine Answered.ite (fun _ => trivial) fun hoff => ?_
    refine (answered_readWhole ..).bind ?_
    intro data hwhole
    have hn := (readWhole_length_iff (by omega) hsize hdata).mp ⟨data, hwhole, rfl⟩
    have hle := h inode hinode hkind (by omega) _ hn
    refine Answered.bind (answered_unwrap.mpr ?_) fun _ _ => trivial
    rw [ne_eq, slice_eq_none]
    omega

theorem answered_mount (src : Source) : Answered (mount src) := by
  refine Answered.ite (fun _ => trivial) fun _ => ?_
  refine Answered.bind (answered_readAt ..) ?_
  intro head _
  refine Answered.ite (fun _ => Answered.ite (fun _ => trivial) fun _ => trivial) fun _ => ?_
  exact Answered.ite (fun _ => trivial) fun _ => trivial

theorem frontend_keeps (codecs : Codecs ρ) (P : Cramfs → Prop) : (frontend codecs).Keeps P where
  lookup _ _ := preserves_reading P _
  readDir _ := preserves_reading P _
  metadata _ := preserves_reading P _
  readAt _ _ _ := preserves_reading P _
  readLink _ := preserves_reading P _

/-- What opens has the magic number, and is read as it is. -/
theorem mount_spec {src : Source} {c : Cramfs} (h : mount src = .ok c) :
    c = ⟨src⟩ ∧ rootInodeOff + 12 ≤ src.len ∧
      ∃ head, src.readAt 0 12 = .ok head ∧ leNat (head.take 4) = magic := by
  obtain ⟨hlen, h⟩ := ite_error_eq_ok.mp h
  obtain ⟨head, hhead, h⟩ := bind_eq_ok.mp h
  dsimp only at h
  split at h
  · split at h
    · exact absurd h (fail_ne_ok _ _)
    · exact absurd h (fail_ne_ok _ _)
  · rename_i hmagic
    obtain ⟨-, h⟩ := ite_error_eq_ok.mp h
    exact ⟨(Except.ok.inj h).symm, Nat.le_of_not_lt hlen, head, hhead, not_not.mp hmagic⟩

/-- A call that is a read starts inside what is stored. -/
def StartsStored (codecs : Codecs ρ) (src : Source) : Call → Prop
  | .readAt node off _ => OffsetStored codecs src node off
  | _ => True

/-- Opening is answered, and in every state a mounted volume can reach a call is
answered exactly when, if it is a read, it starts inside what is stored. -/
theorem answers_iff_startsStored (codecs : Codecs ρ) (src : Source) :
    Answered (mount src) ∧
      ∀ c t call, mount src = .ok c → Reaches (fun _ : Unit => frontend codecs) c t →
        ((frontend codecs).Answers call t ↔ StartsStored codecs src call) := by
  refine ⟨answered_mount src, ?_⟩
  intro c t call hmount hrun
  obtain rfl := hrun.eq_start fun _ => frontend_keeps codecs
  have hsrc : src = t.src := by rw [(mount_spec hmount).1]
  subst hsrc
  have hinode := answered_parseInode t.src
  cases call with
  | lookup dir name => exact iff_true_intro ((answered_readDir t dir).bind fun _ _ => trivial)
  | readDir dir => exact iff_true_intro (answered_readDir t dir)
  | metadata node => exact iff_true_intro ((hinode node).bind fun _ _ => trivial)
  | readAt node off buf => exact answered_readAt_iff
  | readLink node =>
    refine iff_true_intro ((hinode node).bind ?_)
    intro inode _
    refine Answered.ite (fun _ => trivial) fun _ => ?_
    exact (answered_readWhole ..).bind fun _ _ => trivial

/-- A zlib stream of one zero byte. -/
def zeroByteStream : List UInt8 := [0x78, 0x9C, 0x63, 0, 0, 0, 1, 0, 1]

/-- Decoders of which only zlib is used, and only on that stream. -/
def zeroByteZlib : Codecs Unit where
  __ := noStreams
  inflateZlib input n := if input = zeroByteStream ∧ 1 ≤ n then some [0] else none
  inflateZlib_le := by
    intro input n out h
    split at h
    · rename_i hstream
      obtain rfl := Option.some.inj h
      exact hstream.2
    · cases h

/-- A volume whose root directory has one file `a`, at 76: it declares three bytes
and has one page, which is the stream of one byte. -/
def shortPage : Source where
  content := [0x45, 0x3D, 0xCD, 0x28] ++ List.replicate 60 0 ++
    [0xED, 0x41, 0, 0, 16, 0, 0, 0, 0xC0, 0x04, 0, 0] ++
    [0xA4, 0x81, 0, 0, 3, 0, 0, 0, 0xC1, 0x05, 0, 0] ++ [0x61, 0, 0, 0] ++
    [105, 0, 0, 0] ++ zeroByteStream
  length_lt := by decide

theorem mount_shortPage : mount shortPage = .ok ⟨shortPage⟩ := by decide +kernel

theorem answers_iff_startsStored_shortPage :
    (frontend zeroByteZlib).Answers (.readAt 76 1 [0]) ⟨shortPage⟩ ↔
      StartsStored zeroByteZlib shortPage (.readAt 76 1 [0]) :=
  (answers_iff_startsStored zeroByteZlib shortPage).2 _ _ _ mount_shortPage .refl

/-- A read at offset 2 of the three-byte file slices its one byte. -/
theorem readAt_shortPage :
    mount shortPage = .ok ⟨shortPage⟩ ∧
      (exec ((frontend zeroByteZlib).readAt 76 2 [0]) ⟨shortPage⟩).1 = .error .panic :=
  ⟨mount_shortPage, by decide +kernel⟩

end Lamfold.Cramfs
