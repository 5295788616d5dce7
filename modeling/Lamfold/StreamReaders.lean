import Lamfold.GzipMember
import Lamfold.Lz4Framing

/-!
Compressed streams that are decoded through a reader, written and read back. A zstd stream is
frames with skippable frames between them, and ends where neither starts; an xz or an lzma
stream ends where its reader does. What follows the stream in the input is not read.
-/
namespace Lamfold.Streams

open Effects Bytes Loops

section Formats

variable {δ ρ : Type} {d : Decoders δ ρ}

/-- A reader gives the data, in chunks, from one input to the end of its stream, which leaves
another. -/
inductive Gives (d : Decoders δ ρ) : ρ → List UInt8 → List UInt8 → List UInt8 → Prop
  | done {reader : ρ} {rest : List UInt8} {r : ReadResult ρ}
      (hread : d.read reader rest chunkLen = some r) (hcount : r.count = 0) :
      Gives d reader rest [] r.rest
  | more {reader : ρ} {rest data last : List UInt8} {r : ReadResult ρ}
      (hread : d.read reader rest chunkLen = some r) (hcount : r.count ≠ 0)
      (htail : Gives d r.reader r.rest data last) :
      Gives d reader rest (r.chunk.take r.count ++ data) last

/-- The allocator has room for an output of so many bytes. -/
def Allocates (d : Decoders δ ρ) (total : ℕ) : Prop := ∀ a b, a + b ≤ total → d.reserve a b = true

theorem Allocates.mono {total total' : ℕ} (h : Allocates d total') (hle : total ≤ total') :
    Allocates d total := fun a b hab => h a b (hab.trans hle)

theorem run_gives {reader : ρ} {rest data last : List UInt8} (h : Gives d reader rest data last)
    {out : List UInt8} {maxOut : ℕ} (what : String) (hroom : (out ++ data).length ≤ maxOut)
    (hreserve : Allocates d (out ++ data).length) :
    run (readTurn d (.ok maxOut) what) (readLeft (.ok maxOut))
      (readTurn_lowers d (.ok maxOut) what) ⟨reader, rest, out⟩ = .ok (out ++ data, last) := by
  induction h generalizing out with
  | @done reader rest r hread hcount =>
    refine run_of_leave _ ?_
    unfold readTurn
    dsimp only
    rw [hread]
    dsimp only
    rw [if_pos hcount, List.append_nil]
  | @more reader rest data last r hread hcount _ ih =>
    have hcount_le : r.count ≤ r.chunk.length := by
      rw [d.read_chunk hread]
      exact d.count_le hread
    have hchunk : slice r.chunk 0 r.count = some (r.chunk.take r.count) :=
      slice_eq_some.mpr ⟨by omega, rfl⟩
    rw [← List.append_assoc] at hroom hreserve ⊢
    have hle : out.length + (r.chunk.take r.count).length ≤
        (out ++ r.chunk.take r.count ++ data).length := by
      simp only [List.length_append]
      omega
    have hturn : readTurn d (.ok maxOut) what ⟨reader, rest, out⟩ =
        .ok (.inr ⟨r.reader, r.rest, out ++ r.chunk.take r.count⟩) := by
      unfold readTurn
      dsimp only
      rw [hread]
      dsimp only
      rw [if_neg hcount, hchunk, unwrap, ok_bind, ok_bind,
        pushCapped_eq (hle.trans hroom) (hreserve _ _ hle)]
      rfl
    rw [run_of_next _ hturn, ih hroom hreserve]

/-- A reader is read to the end of its stream. -/
theorem Gives.readAllCapped {reader : ρ} {rest data last : List UInt8}
    (h : Gives d reader rest data last) {maxOut : ℕ} (what : String) (hroom : data.length ≤ maxOut)
    (hreserve : Allocates d data.length) :
    readAllCapped d (.ok maxOut) what reader rest = .ok (data, last) :=
  @run_gives _ _ d reader rest data last h [] maxOut what hroom hreserve

/-- A frame as it is stored, and what its reader gives whatever is behind it. -/
structure ZstdFrame (d : Decoders δ ρ) where
  stored : List UInt8
  magic : zstdFrameMagic <+: stored
  data : List UInt8
  decodes : ∀ rest, ∃ reader first, d.zstdReader (stored ++ rest) = some (reader, first) ∧
    Gives d reader first data rest

/-- The magic of a skippable frame, whose first byte has four bits to choose, and its size. -/
inductive SkippableHead : List UInt8 → ℕ → Prop
  | intro {first : UInt8} {size : List UInt8} (hfirst : first &&& 0xF0 = 0x50)
      (hsize : size.length = 4) : SkippableHead ([first, 0x2A, 0x4D, 0x18] ++ size) (leNat size)

/-- A part of a stream: a frame, or one to skip. -/
inductive ZstdPart (d : Decoders δ ρ)
  | frame (f : ZstdFrame d)
  | skippable (head bytes : List UInt8) (hhead : SkippableHead head bytes.length)

namespace ZstdPart

def encode : ZstdPart d → List UInt8
  | frame f => f.stored
  | skippable head bytes _ => head ++ bytes

def data : ZstdPart d → List UInt8
  | frame f => f.data
  | skippable _ _ _ => []

def isFrame : ZstdPart d → Bool
  | frame _ => true
  | skippable _ _ _ => false

end ZstdPart

/-- Neither a frame nor one to skip starts here. -/
structure NoFrame (rest : List UInt8) : Prop where
  frame : ¬zstdFrameMagic <+: rest
  skippable : ∀ head size, SkippableHead head size → ¬head <+: rest

theorem SkippableHead.length_eq {head : List UInt8} {size : ℕ} (h : SkippableHead head size) :
    head.length = 8 := by
  cases h with
  | intro _ hsize =>
    simp only [List.length_append, List.length_cons, List.length_nil]
    omega

/-- A skippable frame is recognised by its head. -/
theorem skippableSize_head {head : List UInt8} {size : ℕ} (h : SkippableHead head size)
    (rest : List UInt8) : skippableSize (head ++ rest) = .ok (some size) := by
  cases h with
  | @intro first size hfirst hsize =>
    have hlen : ([first, 0x2A, 0x4D, 0x18] ++ size ++ rest).length ≥ 8 := by
      simp only [List.length_append, List.length_cons, List.length_nil]
      omega
    have hmagic : slice ([first, 0x2A, 0x4D, 0x18] ++ size ++ rest) 1 3 =
        some [0x2A, 0x4D, 0x18] := slice_eq_some.mpr ⟨by omega, rfl⟩
    have hfield : slice ([first, 0x2A, 0x4D, 0x18] ++ size ++ rest) 4 4 = some size :=
      slice_of_append rfl rfl hsize.symm
    unfold skippableSize
    rw [if_pos hlen, hmagic, hfield]
    exact if_pos ⟨hfirst, rfl⟩

/-- Where no head is, nothing is skipped. -/
theorem skippableSize_none {rest : List UInt8}
    (h : ∀ head size, SkippableHead head size → ¬head <+: rest) :
    skippableSize rest = .ok none := by
  unfold skippableSize
  split
  · rename_i hlen
    obtain ⟨first, rest, rfl⟩ := List.exists_cons_of_length_pos (Nat.lt_of_lt_of_le (by decide) hlen)
    have hmagic : slice (first :: rest) 1 3 = some (rest.take 3) :=
      slice_eq_some.mpr ⟨by omega, rfl⟩
    have hfield : slice (first :: rest) 4 4 = some ((rest.drop 3).take 4) :=
      slice_eq_some.mpr ⟨by omega, rfl⟩
    rw [hmagic, hfield]
    refine if_neg ?_
    rintro ⟨hfirst, hthree⟩
    rw [List.length_cons] at hlen
    have hsize : ((rest.drop 3).take 4).length = 4 := by
      rw [List.length_take, List.length_drop]
      omega
    refine h _ _ (.intro hfirst hsize) ⟨rest.drop 7, ?_⟩
    calc [first, 0x2A, 0x4D, 0x18] ++ (rest.drop 3).take 4 ++ rest.drop 7
        = first :: ([0x2A, 0x4D, 0x18] ++ ((rest.drop 3).take 4 ++ (rest.drop 3).drop 4)) := by
          rw [List.drop_drop, List.append_assoc]
          rfl
      _ = first :: rest := by
          rw [List.take_append_drop, ← hthree, List.take_append_drop]
  · rfl

theorem frame_not_skippable {rest head : List UInt8} {size : ℕ} (hframe : zstdFrameMagic <+: rest)
    (h : SkippableHead head size) : ¬head <+: rest := by
  rintro ⟨more, rfl⟩
  obtain ⟨more', heq⟩ := hframe
  cases h with
  | intro hfirst =>
    obtain ⟨rfl, -⟩ := List.cons.inj heq
    exact absurd hfirst (by decide)

section Runs

variable {maxOut : ℕ}

/-- A skippable frame is passed over. -/
theorem zstdTurn_skippable {head bytes post out : List UInt8} {frames : ℕ}
    (h : SkippableHead head bytes.length) :
    zstdTurn d maxOut ⟨head ++ bytes ++ post, out, frames⟩ = .ok (.inr ⟨post, out, frames⟩) := by
  have hlen := h.length_eq
  have hrest : getFrom (head ++ bytes ++ post) (8 + bytes.length) = some post := by
    refine getFrom_eq_some.mpr ⟨?_, ?_⟩
    · simp only [List.length_append]
      omega
    · rw [← hlen, ← List.length_append]
      exact List.drop_left
  unfold zstdTurn
  dsimp only
  rw [List.append_assoc, skippableSize_head h, ok_bind, ← List.append_assoc]
  dsimp only
  rw [hrest]
  rfl

/-- A frame is read behind the output so far. -/
theorem zstdTurn_frame (f : ZstdFrame d) {post out : List UInt8} {frames : ℕ}
    (hroom : (out ++ f.data).length ≤ maxOut) (hreserve : Allocates d (out ++ f.data).length) :
    zstdTurn d maxOut ⟨f.stored ++ post, out, frames⟩ =
      .ok (.inr ⟨post, out ++ f.data, frames + 1⟩) := by
  have hmagic : zstdFrameMagic <+: f.stored ++ post := f.magic.trans (List.prefix_append ..)
  have hskip : skippableSize (f.stored ++ post) = .ok none :=
    skippableSize_none fun _ _ h => frame_not_skippable hmagic h
  obtain ⟨reader, first, hreader, hgives⟩ := f.decodes post
  rw [List.length_append] at hroom hreserve
  have hleft : minus maxOut out.length = .ok (maxOut - out.length) :=
    minus_eq_ok.mpr ⟨by omega, rfl⟩
  have hread : readAllCapped d (.ok (maxOut - out.length)) "zstd read failed" reader first =
      .ok (f.data, post) :=
    hgives.readAllCapped _ (by omega) (hreserve.mono (Nat.le_add_left ..))
  unfold zstdTurn
  dsimp only
  rw [hskip, ok_bind]
  dsimp only
  rw [List.isPrefixOf_iff_prefix.mpr hmagic, hreader, okOr, ok_bind, hleft]
  dsimp only
  rw [if_neg (by decide), hread, ok_bind, pushCapped_eq hroom (hreserve _ _ le_rfl)]
  rfl

theorem zstdTurn_stop {rest out : List UInt8} {frames : ℕ} (h : NoFrame rest) :
    zstdTurn d maxOut ⟨rest, out, frames⟩ = .ok (.inl ⟨rest, out, frames⟩) := by
  have hmagic : zstdFrameMagic.isPrefixOf rest = false := by
    rw [← Bool.not_eq_true, List.isPrefixOf_iff_prefix]
    exact h.frame
  unfold zstdTurn
  dsimp only
  rw [skippableSize_none h.skippable, ok_bind]
  dsimp only
  rw [hmagic]
  rfl

theorem run_parts (parts : List (ZstdPart d)) {post out : List UInt8} {frames : ℕ}
    (hpost : NoFrame post) (hroom : (out ++ parts.flatMap ZstdPart.data).length ≤ maxOut)
    (hreserve : Allocates d (out ++ parts.flatMap ZstdPart.data).length) :
    run (zstdTurn d maxOut) _ (zstdTurn_lowers d maxOut)
      ⟨parts.flatMap ZstdPart.encode ++ post, out, frames⟩ =
        .ok ⟨post, out ++ parts.flatMap ZstdPart.data, frames + parts.countP ZstdPart.isFrame⟩ := by
  induction parts generalizing out frames with
  | nil =>
    rw [List.flatMap_nil, List.flatMap_nil, List.append_nil]
    exact run_of_leave _ (zstdTurn_stop hpost)
  | cons part parts ih =>
    rw [List.flatMap_cons, List.flatMap_cons, List.append_assoc, List.countP_cons]
    rw [List.flatMap_cons, ← List.append_assoc] at hroom hreserve
    rw [← List.append_assoc out]
    have hrest := @ih (out ++ part.data) (frames + if part.isFrame then 1 else 0) hroom hreserve
    have hcount : frames + (if part.isFrame then 1 else 0) + parts.countP ZstdPart.isFrame =
        frames + (parts.countP ZstdPart.isFrame + if part.isFrame then 1 else 0) := by
      omega
    rw [hcount] at hrest
    refine (run_of_next _ ?_).trans hrest
    cases part with
    | frame f =>
      have hle : (out ++ f.data).length ≤
          (out ++ f.data ++ parts.flatMap ZstdPart.data).length :=
        (List.prefix_append ..).length_le
      exact zstdTurn_frame f (hle.trans hroom) (hreserve.mono hle)
    | skippable head bytes hhead =>
      change zstdTurn d maxOut ⟨head ++ bytes ++ _, out, frames⟩ = .ok (.inr ⟨_, out ++ [], frames⟩)
      rw [List.append_nil]
      exact zstdTurn_skippable hhead

end Runs

/-- What a reader leaves of the input tells how much the stream used. -/
theorem used_of_rest (stored rest : List UInt8) :
    minus (stored ++ rest).length rest.length = .ok stored.length := by
  rw [List.length_append]
  exact minus_eq_ok.mpr ⟨Nat.le_add_left .., Nat.add_sub_cancel ..⟩

theorem zstd_parts {parts : List (ZstdPart d)} (hframe : ∃ part ∈ parts, part.isFrame = true)
    {rest : List UInt8} (hrest : NoFrame rest) {maxOut : ℕ}
    (hroom : (parts.flatMap ZstdPart.data).length ≤ maxOut)
    (hreserve : Allocates d (parts.flatMap ZstdPart.data).length) :
    zstd d (parts.flatMap ZstdPart.encode ++ rest) maxOut =
      .ok (parts.flatMap ZstdPart.data, (parts.flatMap ZstdPart.encode).length) := by
  have hrun := @run_parts _ _ d maxOut parts rest [] 0 hrest hroom hreserve
  have hpos : ¬0 + parts.countP ZstdPart.isFrame = 0 := by
    have hcount := List.countP_pos_iff.mpr hframe
    omega
  unfold zstd
  rw [hrun, ok_bind, if_neg hpos, used_of_rest]
  rfl

/-- A zstd stream of frames, and of frames to skip, is decoded frame for frame, and its end is
found in front of what starts neither. An xz and an lzma stream are decoded to the end that
their reader finds. Each uses its own length of the input. -/
theorem decodeStream_readers (d : Decoders δ ρ) (features : Features) (maxOut : ℕ) :
    (features.zstd = true → ∀ (parts : List (ZstdPart d)) (rest : List UInt8),
      (∃ part ∈ parts, part.isFrame = true) → NoFrame rest →
      (parts.flatMap ZstdPart.data).length ≤ maxOut →
      Allocates d (parts.flatMap ZstdPart.data).length →
      decodeStream d features .zstd (parts.flatMap ZstdPart.encode ++ rest) maxOut =
        .ok (parts.flatMap ZstdPart.data, (parts.flatMap ZstdPart.encode).length)) ∧
    (features.xz = true → ∀ (stored data rest : List UInt8),
      data.length ≤ maxOut → Allocates d data.length →
      (Gives d (d.xzReader (stored ++ rest)).1 (d.xzReader (stored ++ rest)).2 data rest →
        decodeStream d features .xz (stored ++ rest) maxOut = .ok (data, stored.length)) ∧
      ∀ reader first, d.lzmaReader (stored ++ rest) = some (reader, first) →
        Gives d reader first data rest →
        decodeStream d features .lzma (stored ++ rest) maxOut = .ok (data, stored.length)) := by
  refine ⟨fun hzstd parts rest hframe hrest hroom hreserve => ?_,
    fun hxz stored data rest hroom hreserve => ⟨fun hgives => ?_, fun reader first hreader hgives => ?_⟩⟩
  · unfold decodeStream
    rw [if_pos hzstd]
    exact zstd_parts hframe hrest hroom hreserve
  · change (if features.xz then xz d (stored ++ rest) maxOut else _) = _
    unfold xz
    rw [if_pos hxz]
    dsimp only
    rw [hgives.readAllCapped _ hroom hreserve, ok_bind]
    dsimp only
    rw [used_of_rest]
    rfl
  · change (if features.xz then lzma d (stored ++ rest) maxOut else _) = _
    unfold lzma
    rw [if_pos hxz, hreader, okOr, ok_bind]
    dsimp only
    rw [hgives.readAllCapped _ hroom hreserve, ok_bind]
    dsimp only
    rw [used_of_rest]
    rfl

end Formats

/-- A frame of one raw block with the byte `a`. -/
def rawFrame : List UInt8 := [0x28, 0xB5, 0x2F, 0xFD, 0x20, 1, 9, 0, 0, 0x61]

/-- A reader of that frame, behind its header: it has the block to give, or nothing. There is
no other reader. -/
def readRaw (reader : Option Bool) (rest : List UInt8) (n : ℕ) :
    Option (ReadResult (Option Bool)) :=
  match reader with
  | none => none
  | some left =>
    if left = true ∧ 4 ≤ rest.length ∧ 0 < n then
      some ⟨some false, rest.drop 4, 1, (rest.drop 3).take 1 ++ List.replicate (n - 1) 0⟩
    else some ⟨some false, rest, 0, List.replicate n 0⟩

theorem readRaw_bounds {reader : Option Bool} {rest : List UInt8} {n : ℕ}
    {r : ReadResult (Option Bool)} (h : readRaw reader rest n = some r) :
    r.count ≤ n ∧ r.chunk.length = n ∧ r.rest.length ≤ rest.length := by
  unfold readRaw at h
  split at h
  · cases h
  split at h
  · rename_i hleft
    obtain ⟨-, hlen, hn⟩ := hleft
    obtain rfl := Option.some.inj h
    refine ⟨hn, ?_, ?_⟩
    · simp only [List.length_append, List.length_take, List.length_drop, List.length_replicate]
      omega
    · rw [List.length_drop]
      omega
  · obtain rfl := Option.some.inj h
    exact ⟨Nat.zero_le n, List.length_replicate, le_rfl⟩

theorem readRaw_count {reader : Option Bool} {rest : List UInt8} {n : ℕ}
    {r : ReadResult (Option Bool)} (h : readRaw reader rest n = some r) : r.count ≤ n :=
  (readRaw_bounds h).1

theorem readRaw_chunk {reader : Option Bool} {rest : List UInt8} {n : ℕ}
    {r : ReadResult (Option Bool)} (h : readRaw reader rest n = some r) : r.chunk.length = n :=
  (readRaw_bounds h).2.1

theorem drains_readRaw {reader : Option Bool} {rest last : List UInt8} {n : ℕ}
    (h : Drains readRaw n reader rest last) : last.length ≤ rest.length := by
  induction h with
  | done hread _ => exact (readRaw_bounds hread).2.2
  | more hread _ _ ih => exact ih.trans (readRaw_bounds hread).2.2

/-- The reader of an input that starts with the frame, and what it leaves of the header. -/
def rawReader (input : List UInt8) : Option (Option Bool × List UInt8) :=
  if rawFrame.isPrefixOf input then some (some true, input.drop 6) else none

theorem rawReader_magic {input rest last : List UInt8} {reader : Option Bool}
    (hreader : rawReader input = some (reader, rest))
    (hdrains : Drains readRaw chunkLen reader rest last) : last.length + 4 ≤ input.length := by
  unfold rawReader at hreader
  split at hreader
  · rename_i hprefix
    obtain ⟨-, rfl⟩ := Prod.mk.inj (Option.some.inj hreader)
    have hlen : rawFrame.length ≤ input.length :=
      (List.isPrefixOf_iff_prefix.mp hprefix).length_le
    have hle := drains_readRaw hdrains
    have hten : rawFrame.length = 10 := rfl
    rw [List.length_drop] at hle
    omega
  · cases hreader

/-- The inflater, the other readers and the LZ4 decoder fail at once. -/
def noInflate (_ : Unit) (_ : List UInt8) (n : ℕ) : InflateResult Unit :=
  ⟨(), 0, 0, List.replicate n 0, .failed⟩

theorem noInflate_consumed (state : Unit) (input : List UInt8) (n : ℕ) :
    (noInflate state input n).consumed ≤ input.length := Nat.zero_le _

theorem noInflate_written (state : Unit) (input : List UInt8) (n : ℕ) :
    (noInflate state input n).written ≤ n := Nat.zero_le _

theorem noInflate_chunk (state : Unit) (input : List UInt8) (n : ℕ) :
    (noInflate state input n).chunk.length = n := List.length_replicate

def noReader (input : List UInt8) : Option Bool × List UInt8 := (none, input)

theorem noReader_drains {input last : List UInt8}
    (h : Drains readRaw chunkLen (noReader input).1 (noReader input).2 last) :
    last.length < input.length := by
  cases h <;> contradiction

def noStream (_ : List UInt8) : Option (Option Bool × List UInt8) := none

theorem noStream_drains {input rest last : List UInt8} {reader : Option Bool}
    (h : noStream input = some (reader, rest)) (_ : Drains readRaw chunkLen reader rest last) :
    last.length < input.length := nomatch h

def noBlocks (_ : List UInt8) (_ : ℕ) : Option (List UInt8) := none

theorem noBlocks_le {block : List UInt8} {n : ℕ} {out : List UInt8}
    (h : noBlocks block n = some out) : out.length ≤ n := nomatch h

/-- Decoders for zstd frames of that kind. -/
def rawOnly : Decoders Unit (Option Bool) where
  inflateInit := ()
  inflate := noInflate
  zstdReader := rawReader
  xzReader := noReader
  lzmaReader := noStream
  read := readRaw
  lz4Block := noBlocks
  reserve _ _ := true
  consumed_le := noInflate_consumed
  written_le := noInflate_written
  inflate_chunk := noInflate_chunk
  count_le := readRaw_count
  read_chunk := readRaw_chunk
  lz4Block_le := noBlocks_le
  zstd_magic := rawReader_magic
  xz_byte := noReader_drains
  lzma_byte := noStream_drains

theorem rawFrame_magic : zstdFrameMagic <+: rawFrame := by decide

theorem rawFrame_decodes (rest : List UInt8) :
    ∃ reader first, rawOnly.zstdReader (rawFrame ++ rest) = some (reader, first) ∧
      Gives rawOnly reader first [0x61] rest := by
  refine ⟨some true, [9, 0, 0, 0x61] ++ rest, rfl, ?_⟩
  have hread : rawOnly.read (some true) ([9, 0, 0, 0x61] ++ rest) chunkLen =
      some ⟨some false, rest, 1, 0x61 :: List.replicate (chunkLen - 1) 0⟩ := by
    change readRaw (some true) ([9, 0, 0, 0x61] ++ rest) chunkLen = _
    unfold readRaw
    dsimp only
    rw [if_pos ⟨rfl, by simp, Nat.two_pow_pos 16⟩]
    rfl
  have hlast : rawOnly.read (some false) rest chunkLen =
      some ⟨some false, rest, 0, List.replicate chunkLen 0⟩ := rfl
  exact .more hread Nat.one_ne_zero (.done hlast rfl)

/-- The frame, as a part of a stream. -/
def letterFrame : ZstdFrame rawOnly where
  stored := rawFrame
  magic := rawFrame_magic
  data := [0x61]
  decodes := rawFrame_decodes

theorem noFrame_zeros : NoFrame [0, 0] where
  frame := by decide
  skippable head size h hprefix := by
    have hle := hprefix.length_le
    rw [h.length_eq] at hle
    exact absurd hle (by decide)

theorem skippable_two : SkippableHead [0x53, 0x2A, 0x4D, 0x18, 2, 0, 0, 0] [7, 7].length :=
  @SkippableHead.intro 0x53 [2, 0, 0, 0] rfl rfl

/-- Two frames, and between them one to skip, before two zeros. -/
theorem decodeStream_readers_twoFrames :
    decodeStream rawOnly allFeatures .zstd
      (rawFrame ++ ([0x53, 0x2A, 0x4D, 0x18, 2, 0, 0, 0] ++ [7, 7]) ++ rawFrame ++ [0, 0]) 2 =
        .ok ([0x61, 0x61], 30) :=
  (decodeStream_readers rawOnly allFeatures 2).1 rfl
    [.frame letterFrame, .skippable _ [7, 7] skippable_two, .frame letterFrame] [0, 0]
    ⟨.frame letterFrame, .head _, rfl⟩ noFrame_zeros le_rfl fun _ _ _ => rfl

end Lamfold.Streams
