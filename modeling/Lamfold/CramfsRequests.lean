import Lamfold.CramfsPages
import Lamfold.Requests

/-!
What the cramfs frontend asks of its source. A page is asked for as a whole, and nothing
limits how far its end may lie behind its start: requests are capped exactly when no file
has a page, among those that are reached, that is longer than the cap.
-/
namespace Lamfold.Cramfs

open Effects Bytes Utf8

/-- The methods, recorded. -/
def recordedMethods {ρ : Type} (codecs : Codecs ρ) :
    FoldFrontendIn (StateM (List Request)) Cramfs := frontendIn (m := Asking) codecs

section Asked

variable {ρ : Type} (codecs : Codecs ρ) {limit : ℕ} (src : Source)

/-- Pages `i` and later are stored in at most `limit` bytes each, as far as the pages
before them can be read. -/
def PagesFit (limit : ℕ) (idx : List UInt8) (total nblocks i start : ℕ) (out : List UInt8) :
    Prop :=
  i < nblocks → ∀ stop, ptr idx i = .ok stop → stop - start ≤ limit ∧
    ∀ data, readPage codecs src start stop (min page (total - out.length)) = .ok data →
      PagesFit limit idx total nblocks (i + 1) stop (out ++ data)
  termination_by nblocks - i

/-- The pages of a file are stored in at most `limit` bytes each. -/
def FileFits (limit : ℕ) (inode : CrInode) : Prop :=
  ∀ idx, src.readAt inode.dataOff (divCeil inode.size page * 4) = .ok idx →
    PagesFit codecs src limit idx inode.size (divCeil inode.size page) 0
      (inode.dataOff + divCeil inode.size page * 4) []

theorem asks_parseInode (off : ℕ) (hlimit : 12 ≤ limit) :
    Asks limit (parseInode src off) (parseInode src off) :=
  .bind (asks_source src off hlimit) fun _ _ => .pure _

theorem asks_readPage {start stop : ℕ} (want : ℕ) (hspan : stop - start ≤ limit) :
    Asks limit (readPage codecs src start stop want)
      (readPage codecs src start stop want) := by
  refine .ite (fun _ => .pure _) fun _ => ?_
  exact .bind (asks_source src start hspan) fun _ _ => .of _

theorem asks_readPages {idx : List UInt8} {total nblocks i start : ℕ} {out : List UInt8}
    (hfit : PagesFit codecs src limit idx total nblocks i start out) :
    Asks limit (readPages codecs src idx total nblocks i start out)
      (readPages codecs src idx total nblocks i start out) := by
  fun_induction readPages codecs src idx total nblocks i start out with
  | case1 i start out hi ih =>
    rw [readPages, if_pos hi]
    rw [PagesFit] at hfit
    refine .bind (.of _) fun stop hstop => ?_
    obtain ⟨hspan, hrest⟩ := hfit hi stop hstop
    refine .bind (asks_readPage codecs src _ hspan) fun data hdata => ?_
    exact ih stop data (hrest data hdata)
  | case2 i start out hi =>
    rw [readPages, if_neg hi]
    exact .pure out

theorem asks_readWhole {inode : CrInode} (hindex : divCeil inode.size page * 4 ≤ limit)
    (hfit : FileFits codecs src limit inode) :
    Asks limit (readWhole codecs src inode) (readWhole codecs src inode) := by
  refine .bind (.of _) fun total htotal => ?_
  obtain ⟨-, rfl⟩ := checkedFullReadLen_eq_ok.mp htotal
  refine .ite (fun _ => .pure _) fun _ => ?_
  refine .bind (asks_source src _ hindex) fun idx hidx => ?_
  refine .bind (.of _) fun start hstart => ?_
  obtain ⟨-, rfl⟩ := fits_eq_ok.mp hstart
  exact .bind (asks_readPages codecs src (hfit idx hidx)) fun out _ => .pure _

/-- A directory asks for an inode and a name at a time. -/
theorem asks_readRecords (stop p : ℕ) (hlimit : 256 ≤ limit) :
    Asks limit (readRecords src stop p) (readRecords src stop p) := by
  fun_induction readRecords src stop p with
  | case1 p hp ih =>
    rw [readRecords, if_pos hp]
    refine .bind (asks_parseInode src p (by omega)) fun child hchild => ?_
    refine .bind (.of _) fun nameOff _ => ?_
    refine .bind (asks_source src nameOff ?_) fun name _ => ?_
    · exact (parseInode_bounds hchild).2.2.le.trans hlimit
    · refine .bind (.of _) fun _ _ => ?_
      exact .bind (ih child) fun rest _ => .pure _
  | case2 p hp =>
    rw [readRecords, if_neg hp]
    exact .pure _

theorem asks_probe : Asks maxBootFileBytes (probe src) (probe src) := by
  refine .ite (fun _ => .pure _) fun _ => ?_
  exact .bind (asks_source src 0 (by decide)) fun _ _ => .pure _

theorem asks_mount : Asks maxBootFileBytes (mount src) (mount src) := by
  refine .ite (fun _ => .of _) fun _ => ?_
  refine .bind (asks_source src 0 (by decide)) fun head _ => ?_
  refine .ite (fun _ => .ite (fun _ => .of _) fun _ => .of _) fun _ => ?_
  exact .ite (fun _ => .of _) fun _ => .pure _

/-- The index of a file is short, as a size has 24 bits. -/
theorem index_le {off : ℕ} {inode : CrInode} (h : parseInode src off = .ok inode) :
    divCeil inode.size page * 4 ≤ maxBootFileBytes := by
  have hsize := (parseInode_bounds h).1
  unfold divCeil page maxBootFileBytes
  omega

/-- Every file has pages of at most `limit` bytes. -/
def FilesFit (limit : ℕ) : Prop :=
  ∀ node inode, parseInode src node = .ok inode → kind inode.mode ≠ .directory →
    FileFits codecs src limit inode

theorem asks_readDir (dir : NodeId) (hlimit : 256 ≤ limit) :
    Asks limit (readDir ⟨src⟩ dir) (readDir ⟨src⟩ dir) := by
  refine .bind (asks_parseInode src dir (by omega)) fun inode _ => ?_
  refine .ite (fun _ => .of _) fun _ => ?_
  exact .bind (.of _) fun stop _ => asks_readRecords src stop _ hlimit

variable {codecs src}

theorem asks_readAt (hlimit : maxBootFileBytes ≤ limit) (hfit : FilesFit codecs src limit)
    (node : NodeId) (off : ℕ) (buf : List UInt8) :
    Asks limit (readAt codecs ⟨src⟩ node off buf) (readAt codecs ⟨src⟩ node off buf) := by
  have hsmall : 12 ≤ limit := Nat.le_trans (by decide) hlimit
  refine .bind (asks_parseInode src node hsmall) fun inode hinode => ?_
  refine .ite (fun _ => .of _) fun hkind => ?_
  refine .ite (fun _ => .pure _) fun _ => ?_
  have hindex := (index_le src hinode).trans hlimit
  refine .bind (asks_readWhole codecs src hindex (hfit node inode hinode hkind)) fun data _ => ?_
  exact .bind (.of _) fun window _ => .pure _

theorem asks_readLink (hlimit : maxBootFileBytes ≤ limit) (hfit : FilesFit codecs src limit)
    (node : NodeId) :
    Asks limit (readLink codecs ⟨src⟩ node) (readLink codecs ⟨src⟩ node) := by
  have hsmall : 12 ≤ limit := Nat.le_trans (by decide) hlimit
  refine .bind (asks_parseInode src node hsmall) fun inode hinode => ?_
  refine .ite (fun _ => .pure _) fun hlink => ?_
  have hkind : kind inode.mode ≠ .directory := by
    intro hdir
    rw [hdir] at hlink
    exact hlink (fun h => nomatch h)
  have hindex := (index_le src hinode).trans hlimit
  refine .bind (asks_readWhole codecs src hindex (hfit node inode hinode hkind)) fun target _ => ?_
  exact .pure _

/-- When the files fit, every call asks for at most `limit` bytes at a time. -/
theorem asks_methods (hlimit : maxBootFileBytes ≤ limit) (hfit : FilesFit codecs src limit) :
    (recordedMethods codecs).Asks (fun _ => Request.Within limit) (frontend codecs) ⟨src⟩ where
  root := rfl
  lookup dir name := .get_bind <|
    .keep (.bind (asks_readDir src dir (Nat.le_trans (by decide) hlimit)) fun _ _ => .pure _) _
  readDir dir := .get_bind <|
    .keep (asks_readDir src dir (Nat.le_trans (by decide) hlimit)) _
  metadata node := .get_bind <|
    .keep (.bind (asks_parseInode src node (Nat.le_trans (by decide) hlimit)) fun _ _ => .pure _) _
  readAt node off buf := .get_bind <| .keep (asks_readAt hlimit hfit node off buf) _
  readLink node := .get_bind <| .keep (asks_readLink hlimit hfit node) _

/-- A page pointer has 32 bits. -/
theorem pagesFit_large (hlimit : 2 ^ 32 ≤ limit) (idx : List UInt8) (total nblocks i start : ℕ)
    (out : List UInt8) : PagesFit codecs src limit idx total nblocks i start out := by
  rw [PagesFit]
  intro hi stop hstop
  obtain ⟨entry, hentry, hstop⟩ := bind_eq_ok.mp hstop
  obtain rfl := Except.ok.inj hstop
  have hlen : entry.length = 4 := slice_length (unwrap_eq_ok.mp hentry)
  have hlt : leNat entry < 256 ^ 4 := hlen ▸ leNat_lt entry
  refine ⟨by omega, ?_⟩
  intro data _
  exact pagesFit_large hlimit idx total nblocks (i + 1) _ _
  termination_by nblocks - i

theorem filesFit_large (hlimit : 2 ^ 32 ≤ limit) : FilesFit codecs src limit :=
  fun _ _ _ _ _ _ => pagesFit_large hlimit ..

/-- What a page loop asked for says that the pages fit. -/
theorem pagesFit_of_within {idx : List UInt8} {total nblocks i start : ℕ} {out : List UInt8}
    (h : (readPages codecs src idx total nblocks i start out : Asking _).Within
      (Request.Within limit)) : PagesFit codecs src limit idx total nblocks i start out := by
  rw [PagesFit]
  intro hi stop hstop
  rw [readPages, if_pos hi] at h
  have hrest := (Noted.within_bind.mp h).2 stop hstop
  obtain ⟨hpage, hmore⟩ := Noted.within_bind.mp hrest
  refine ⟨?_, ?_⟩
  · by_cases hhole : stop ≤ start
    · omega
    · unfold readPage at hpage
      rw [if_neg hhole] at hpage
      exact (Noted.within_bind.mp hpage).1 _ (List.mem_singleton_self _)
  · intro data hdata
    have hread := asks_readPage codecs src (min page (total - out.length)) (le_refl (stop - start))
    exact pagesFit_of_within (hmore data (hread.result.trans hdata))
  termination_by nblocks - i

/-- What a read of a file asked for says that its pages fit. -/
theorem fileFits_of_within {node : NodeId} {inode : CrInode}
    (hinode : parseInode src node = .ok inode) (hkind : kind inode.mode ≠ .directory)
    (h : (readAt codecs ⟨src⟩ node 0 [] : Asking _).Within (Request.Within limit)) :
    FileFits codecs src limit inode := by
  intro idx hidx
  by_cases hzero : inode.size = 0
  · have hnone : divCeil inode.size page = 0 := by
      rw [hzero]
      rfl
    rw [hnone, PagesFit]
    intro hi
    exact absurd hi (Nat.lt_irrefl 0)
  have hparsed := asks_parseInode src node (le_refl 12)
  have hread := (Noted.within_bind.mp h).2 inode (hparsed.result.trans hinode)
  rw [if_neg hkind, if_neg (by omega)] at hread
  have hwhole := (Noted.within_bind.mp hread).1
  have hsize := (parseInode_bounds hinode).1
  have htotal : checkedFullReadLen inode.size = .ok inode.size :=
    checkedFullReadLen_eq_ok.mpr ⟨by unfold maxBootFileBytes; omega, rfl⟩
  have hindexed := (Noted.within_bind.mp hwhole).2 inode.size htotal
  rw [if_neg hzero] at hindexed
  have hstarted := (Noted.within_bind.mp hindexed).2 idx hidx
  have hend : inode.dataOff + divCeil inode.size page * 4 < 2 ^ 64 :=
    Nat.lt_of_le_of_lt (Source.readAt_le hidx) src.length_lt
  have hpages := (Noted.within_bind.mp hstarted).2 _ (fits_eq_ok.mpr ⟨hend, rfl⟩)
  exact pagesFit_of_within (Noted.within_bind.mp hpages).1

end Asked

section Capped

variable {ρ : Type} (codecs : Codecs ρ)

def opening : Opening Cramfs Unit := ⟨probe, mount, fun _ => frontend codecs⟩

def recorded : Recorded (opening codecs) where
  probe := probe
  mount := mount
  methods _ := recordedMethods codecs
  probe_eq src := (asks_probe src).result
  mount_eq src := (asks_mount src).result
  methods_eq _ c := by
    have hlimit : maxBootFileBytes ≤ 2 ^ 32 := by decide
    exact (asks_methods hlimit (filesFit_large (le_refl (2 ^ 32)))).mono fun _ _ _ => trivial

/-- Requests are capped exactly when the pages of each file are. -/
theorem capped_iff (src : Source) : (recorded codecs).Capped src ↔
    ∀ c, mount src = .ok c → FilesFit codecs src maxBootFileBytes := by
  constructor
  · intro h c hmount node inode hinode hkind
    obtain rfl := (mount_spec hmount).1
    have hread := h.calls hmount .refl () (.readAt node 0 [])
    apply fileFits_of_within hinode hkind
    intro r hr
    exact hread r hr
  · intro h
    refine .intro (P := fun c => c = ⟨src⟩ ∧ FilesFit codecs src maxBootFileBytes)
      (asks_probe src).within (asks_mount src).within ?_ ?_ ?_
    · intro c hmount
      exact ⟨(mount_spec hmount).1, h c hmount⟩
    · intro _
      exact frontend_keeps codecs _
    · rintro _ _ ⟨rfl, hfit⟩
      exact (asks_methods (le_refl _) hfit).mono fun c _ hr => hr.trans (Nat.le_max_left _ _)

/-- A volume with a file at 76 whose only page ends at the last 32-bit offset. -/
def longPage : Source where
  content := [0x45, 0x3D, 0xCD, 0x28] ++ List.replicate 60 0 ++
    [0xED, 0x41, 0, 0, 12, 0, 0, 0, 0xC0, 0x04, 0, 0] ++
    [0xA4, 0x81, 0, 0, 1, 0, 0, 0, 0x80, 0x05, 0, 0] ++ [0xFF, 0xFF, 0xFF, 0xFF]
  length_lt := by decide

/-- A read of the file asks for almost 4 GiB, in a source of 92 bytes. -/
theorem longPage_request :
    mount longPage = .ok ⟨longPage⟩ ∧
      ⟨92, 2 ^ 32 - 1 - 92⟩ ∈ (recordedMethods noStreams).requests (.readAt 76 0 [0]) ⟨longPage⟩ :=
  ⟨by decide +kernel, by decide +kernel⟩

end Capped

end Lamfold.Cramfs
