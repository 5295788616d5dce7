import Lamfold.CpioChain
import Lamfold.CramfsPages
import Lamfold.Flock

/-!
What opens is what was probed. A mount that succeeds has read the magic that the sniff
looks for, in a longer read from the same offset. The mount of cpio alone has a fallback:
what does not start with a magic of the kernel's formats goes to the reader of older
archives, and opens as an empty tree when that finds no entries.
-/
namespace Lamfold

open Effects Bytes

/-- The number that a longer buffer starts with. -/
theorem leAt_zero_eq_ok {n v : ℕ} {what : String} {bytes : List UInt8}
    (h : leAt n what bytes 0 = .ok v) : leNat (bytes.take n) = v := by
  obtain ⟨field, hfield, h⟩ := bind_eq_ok.mp h
  obtain ⟨-, rfl⟩ := slice_eq_some.mp (okOr_eq_ok.mp hfield)
  exact Except.ok.inj h

/-- A sniff of the first bytes of a region that was read. -/
theorem sniff_of_read {src : Source} {off n k bound : ℕ} {bytes : List UInt8}
    {test : List UInt8 → Bool} (hread : src.readAt off n = .ok bytes) (hk : k ≤ n)
    (hbound : bound ≤ src.len) (htest : test (bytes.take k) = true) :
    (if src.len < bound then .ok false
      else do
        let m ← src.readAt off k
        return test m : Outcome Bool) = .ok true := by
  rw [if_neg (Nat.not_lt.mpr hbound), Source.readAt_take hread hk, ok_bind, htest]
  rfl

theorem Iso9660.probe_of_mount {src : Source} {iso : Iso9660} (h : Iso9660.mount src = .ok iso) :
    Iso9660.probe src = .ok true := by
  obtain ⟨⟨vol, root⟩, hopen, -⟩ := bind_eq_ok.mp h
  obtain ⟨found, hscan, hopen⟩ := bind_eq_ok.mp hopen
  obtain ⟨primary, hprimary, -⟩ := bind_eq_ok.mp hopen
  obtain ⟨off, hoff, hscan⟩ := bind_eq_ok.mp hscan
  rw [lift_self] at hoff
  obtain ⟨-, rfl⟩ := fits_eq_ok.mp hoff
  obtain ⟨stop, -, hscan⟩ := bind_eq_ok.mp hscan
  split at hscan
  · -- without a first descriptor there is no primary one
    cases hscan
    cases hprimary
  · obtain ⟨vd, hvd, hscan⟩ := bind_eq_ok.mp hscan
    obtain ⟨id, hid, hscan⟩ := bind_eq_ok.mp hscan
    obtain ⟨hstandard, -⟩ := ite_error_eq_ok.mp hscan
    have hsize : 8 ≤ vdSize := by decide
    have hhdr : src.readAt vdRegionOffset 8 = .ok (vd.take 8) := by
      rw [Nat.zero_mul, Nat.add_zero] at hvd
      exact Source.readAt_take hvd hsize
    have hpos := Source.readAt_le hhdr
    have hlen := Source.readAt_length hvd
    have hname : (vd.drop 1).take 5 = standardId :=
      (slice_eq_some.mp (unwrap_eq_ok.mp hid)).2.trans (not_not.mp hstandard)
    have hid : slice (vd.take 8) 1 5 = some standardId := by
      refine slice_eq_some.mpr ⟨?_, ?_⟩
      · rw [List.length_take, hlen, Nat.min_eq_left hsize]
        decide
      · rw [List.drop_take, List.take_take]
        exact hname
    unfold probe
    rw [if_neg (Nat.not_lt.mpr hpos), hhdr, ok_bind, hid]
    rfl

theorem Udf.probe_of_mount {src : Source} {u : Udf} (h : Udf.mount src = .ok u) :
    Udf.probe src = .ok true := by
  obtain ⟨⟨vol, fsdLb⟩, hopen, -⟩ := bind_eq_ok.mp h
  obtain ⟨avdp, havdp, hopen⟩ := bind_eq_ok.mp hopen
  obtain ⟨tag, htag, hopen⟩ := bind_eq_ok.mp hopen
  obtain ⟨hanchor, -⟩ := ite_error_eq_ok.mp hopen
  obtain ⟨off, hoff, havdp⟩ := bind_eq_ok.mp havdp
  rw [lift_self] at hoff
  obtain ⟨-, rfl⟩ := fits_eq_ok.mp hoff
  obtain ⟨stop, hstop, havdp⟩ := bind_eq_ok.mp havdp
  rw [lift_self] at hstop
  obtain ⟨-, rfl⟩ := fits_eq_ok.mp hstop
  obtain ⟨hlen, hread⟩ := ite_error_eq_ok.mp havdp
  have hbound : avdpSector * sector + 4 ≤ src.len := by
    have hsector : 4 ≤ sector := by decide
    omega
  refine sniff_of_read hread (by decide) hbound (decide_eq_true ?_)
  rw [List.take_take]
  exact (leAt_zero_eq_ok htag).trans (not_not.mp hanchor)

theorem SquashFs.probe_of_mount {ρ : Type} {codecs : Codecs ρ} {src : Source} {fs : SquashFs}
    (h : SquashFs.mount codecs src = .ok fs) : SquashFs.probe src = .ok true := by
  obtain ⟨⟨vol, rootRef⟩, hopen, -⟩ := bind_eq_ok.mp h
  obtain ⟨hlen, hopen⟩ := ite_error_eq_ok.mp hopen
  obtain ⟨sb, hsb, hopen⟩ := bind_eq_ok.mp hopen
  obtain ⟨found, hfound, hopen⟩ := bind_eq_ok.mp hopen
  obtain ⟨hmagic, -⟩ := ite_error_eq_ok.mp hopen
  refine sniff_of_read hsb (by decide) (by omega) (decide_eq_true ?_)
  exact (leAt_zero_eq_ok hfound).trans (not_not.mp hmagic)

theorem Erofs.probe_of_mount {src : Source} {fs : Erofs} (h : Erofs.mount src = .ok fs) :
    Erofs.probe src = .ok true := by
  obtain ⟨vol, hopen, -⟩ := bind_eq_ok.mp h
  obtain ⟨hlen, hopen⟩ := ite_error_eq_ok.mp hopen
  obtain ⟨sb, hsb, hopen⟩ := bind_eq_ok.mp hopen
  obtain ⟨found, hfound, hopen⟩ := bind_eq_ok.mp hopen
  obtain ⟨hmagic, -⟩ := ite_error_eq_ok.mp hopen
  refine sniff_of_read hsb (by decide) (by omega) (decide_eq_true ?_)
  exact (leAt_zero_eq_ok hfound).trans (not_not.mp hmagic)

theorem Cramfs.probe_of_mount {src : Source} {c : Cramfs} (h : Cramfs.mount src = .ok c) :
    Cramfs.probe src = .ok true := by
  obtain ⟨-, hlen, head, hhead, hmagic⟩ := Cramfs.mount_spec h
  exact sniff_of_read hhead (by decide) hlen (decide_eq_true hmagic)

theorem Romfs.probe_of_mount {src : Source} {r : Romfs} (h : Romfs.mount src = .ok r) :
    Romfs.probe src = .ok true := by
  obtain ⟨hlen, h⟩ := ite_error_eq_ok.mp h
  obtain ⟨head, hhead, h⟩ := bind_eq_ok.mp h
  obtain ⟨hmagic, -⟩ := ite_error_eq_ok.mp h
  have hle : 8 ≤ min (16 + maxName) src.len := by
    unfold maxName
    omega
  exact sniff_of_read hhead hle (Nat.le_of_not_lt hlen) (decide_eq_true (not_not.mp hmagic))

namespace Cpio

/-- `070707`. -/
def odcMagic : List UInt8 := [0x30, 0x37, 0x30, 0x37, 0x30, 0x37]

/-- The archive starts with the magic of a format: newc, CRC, portable ASCII, or the old
binary one in either byte order. -/
def Recognised (archive : List UInt8) : Prop :=
  6 ≤ archive.length ∧ (newcMagic <+: archive ∨ crcMagic <+: archive ∨ odcMagic <+: archive ∨
    [0o161, 0o307] <+: archive ∨ [0o307, 0o161] <+: archive)

theorem probe_iff (src : Source) : probe src = .ok true ↔ Recognised src.content := by
  unfold probe Recognised
  by_cases hlen : src.len < 6
  · rw [if_pos hlen]
    exact iff_of_false nofun fun h => absurd h.1 (Nat.not_le.mpr hlen)
  · have hle : 6 ≤ src.content.length := Nat.le_of_not_lt hlen
    have hread : src.readAt 0 6 = .ok (src.content.take 6) :=
      Source.readAt_eq_ok.mpr (slice_eq_some.mpr ⟨by omega, rfl⟩)
    have hshort : (src.content.take 6).take 2 = src.content.take 2 := List.take_take
    rw [if_neg hlen, hread, ok_bind, hshort]
    simp only [List.prefix_iff_eq_take]
    constructor
    · intro h
      rcases of_decide_eq_true (Except.ok.inj h) with (h | h | h) | h | h
      · exact ⟨hle, .inl h.symm⟩
      · exact ⟨hle, .inr (.inl h.symm)⟩
      · exact ⟨hle, .inr (.inr (.inl h.symm))⟩
      · exact ⟨hle, .inr (.inr (.inr (.inl h.symm)))⟩
      · exact ⟨hle, .inr (.inr (.inr (.inr h.symm)))⟩
    · intro h
      apply congrArg Except.ok
      apply decide_eq_true
      rcases h.2 with h | h | h | h | h
      · exact .inl (.inl h.symm)
      · exact .inl (.inr (.inl h.symm))
      · exact .inl (.inr (.inr h.symm))
      · exact .inr (.inl h.symm)
      · exact .inr (.inr h.symm)

/-- What the iterator finds nothing in opens as an empty tree. -/
theorem mount_unrecognised {readers : Readers} {src : Source} (hlen : src.len ≤ maxBootFileBytes)
    (hmagic : ¬Recognised src.content) (hnone : readers.iterFiles src.content = []) :
    mount readers src = .ok ⟨[src.content], [Node.dir 0o755]⟩ := by
  have hread : src.readAt 0 src.len = .ok src.content :=
    Source.readAt_eq_ok.mpr (slice_eq_some.mpr ⟨by rw [Nat.zero_add]; rfl, List.take_length⟩)
  have hplain : ¬(newcMagic.isPrefixOf src.content ∨ crcMagic.isPrefixOf src.content) := by
    intro h
    simp only [List.isPrefixOf_iff_prefix] at h
    rcases h with h | h
    · exact hmagic ⟨h.length_le, .inl h⟩
    · exact hmagic ⟨h.length_le, .inr (.inl h)⟩
  refine bind_eq_ok.mpr ⟨src.len, checkedFullReadLen_eq_ok.mpr ⟨hlen, rfl⟩, ?_⟩
  refine bind_eq_ok.mpr ⟨src.content, hread, ?_⟩
  dsimp only
  rw [if_neg hplain]
  refine bind_eq_ok.mpr ⟨[Node.dir 0o755], ?_, rfl⟩
  unfold insertSingle
  rw [hnone]
  rfl

/-- What is longer than the read cap is refused, and what is not opens, if only by the
fallback. -/
theorem probe_of_mount_iff {readers : Readers}
    (hreaders : ∀ archive, ¬Recognised archive → readers.iterFiles archive = []) (src : Source) :
    (∀ c, mount readers src = .ok c → probe src = .ok true) ↔
      maxBootFileBytes < src.len ∨ Recognised src.content := by
  rw [probe_iff]
  constructor
  · intro h
    by_cases hlen : src.len ≤ maxBootFileBytes
    · refine .inr (Classical.byContradiction fun hmagic => ?_)
      exact hmagic (h _ (mount_unrecognised hlen hmagic (hreaders _ hmagic)))
    · exact .inl (Nat.lt_of_not_le hlen)
  · intro h c hmount
    rcases h with hlen | hmagic
    · obtain ⟨len, hcap, -⟩ := bind_eq_ok.mp hmount
      exact absurd (checkedFullReadLen_eq_ok.mp hcap).1 (Nat.not_le.mpr hlen)
    · exact hmagic

end Cpio

namespace Member

variable {ρ : Type}

/-- What `open` may take as it is: for cpio, what is too long to be taken or starts with
the magic of a format. -/
def Sniffed (src : Source) : Member → Prop
  | cpio => maxBootFileBytes < src.len ∨ Cpio.Recognised src.content
  | iso _ => True
  | udf => True
  | squashfs => True
  | erofs => True
  | cramfs => True
  | romfs => True

/-- What opens was probed, but for what the fallback of cpio takes. -/
theorem probed_iff_sniffed (codecs : Codecs ρ) {readers : Cpio.Readers}
    (hreaders : ∀ archive, ¬Cpio.Recognised archive → readers.iterFiles archive = [])
    (src : Source) (member : Member) :
    (∀ s, mount codecs readers src member = .ok s → probe src member = .ok true) ↔
      member.Sniffed src := by
  cases member with
  | iso zisofs => exact iff_of_true (fun _ h => Iso9660.probe_of_mount h) trivial
  | udf => exact iff_of_true (fun _ h => Udf.probe_of_mount h) trivial
  | squashfs => exact iff_of_true (fun _ h => SquashFs.probe_of_mount h) trivial
  | erofs => exact iff_of_true (fun _ h => Erofs.probe_of_mount h) trivial
  | cramfs => exact iff_of_true (fun _ h => Cramfs.probe_of_mount h) trivial
  | romfs => exact iff_of_true (fun _ h => Romfs.probe_of_mount h) trivial
  | cpio => exact Cpio.probe_of_mount_iff hreaders src

end Member

namespace Cpio

/-- The beginning of a gzip member. -/
def gzipFirst : Source := ⟨[0x1F, 0x8B, 8, 0, 0, 0, 0, 0], by decide⟩

end Cpio

theorem Member.probed_iff_sniffed_gzipFirst :
    (∀ c, Cpio.mount Cpio.plainReaders Cpio.gzipFirst = .ok c →
        Cpio.probe Cpio.gzipFirst = .ok true) ↔ Member.cpio.Sniffed Cpio.gzipFirst :=
  probed_iff_sniffed noStreams (fun _ _ => rfl) Cpio.gzipFirst .cpio

/-- An image that begins with a compressed member opens as an empty tree, and is not
probed. -/
theorem Cpio.mount_gzipFirst :
    mount plainReaders gzipFirst = .ok ⟨[gzipFirst.content], [Node.dir 0o755]⟩ ∧
      probe gzipFirst = .ok false := by
  refine ⟨mount_unrecognised (by decide) ?_ rfl, by decide⟩
  unfold Recognised
  simp only [List.prefix_iff_eq_take]
  decide

end Lamfold
