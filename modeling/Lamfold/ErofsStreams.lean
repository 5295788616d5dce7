import Lamfold.ErofsDecode
import Lamfold.Lz4Block
import Lamfold.StoredBlocks

/-!
The streams of EROFS pclusters: how much of the output before a stream its decoder
needs, and what the padding in front of a stream changes.
-/
namespace Lamfold.Erofs

open Effects Bytes

variable {ρ : Type} {codecs : Codecs ρ}

/-- The LZ4 decoder follows the block format, which reaches 65535 bytes back. -/
def DecodesLz4 (codecs : Codecs ρ) : Prop :=
  ∀ input n dict, codecs.lz4WithDict input n dict = Lz4Block.decode input n dict

/-- The last 65536 bytes of the output before it are all that an LZ4 pcluster needs. -/
theorem decodeHead_window (codecs : Codecs ρ) (hlz4 : DecodesLz4 codecs) (span : List UInt8)
    (outlen : ℕ) (priorOut : List UInt8) (lzmaDict : Option ℕ) (lz4ZeroPadding : Bool) :
    decodeHead codecs algoLz4 span outlen priorOut lzmaDict lz4ZeroPadding =
      lz4Pcluster codecs span outlen priorOut lz4ZeroPadding := by
  have hwindow : ∀ input n, codecs.lz4WithDict input n (Lz4Block.recent lz4Window priorOut) =
      codecs.lz4WithDict input n priorOut := by
    intro input n
    rw [hlz4, hlz4, Lz4Block.decode_recent (by decide)]
  show lz4Pcluster codecs span outlen (Lz4Block.recent lz4Window priorOut) lz4ZeroPadding = _
  unfold lz4Pcluster lz4BlockWithDict
  simp only [hwindow]

/-- A decoder of LZ4 alone. -/
def lz4Only : Codecs Unit where
  __ := noStreams
  lz4WithDict := Lz4Block.decode
  lz4WithDict_le := Lz4Block.decode_length_le

/-- A stream that copies four bytes from three bytes back, all of them prior output or
copied before. -/
theorem decodeHead_window_overlap :
    decodeHead lz4Only algoLz4 [0, 3, 0, 0x10, 9] 5 [1, 2, 3] none false =
      lz4Pcluster lz4Only [0, 3, 0, 0x10, 9] 5 [1, 2, 3] false :=
  decodeHead_window lz4Only (fun _ _ _ => rfl) [0, 3, 0, 0x10, 9] 5 [1, 2, 3] none false

example : lz4Pcluster lz4Only [0, 3, 0, 0x10, 9] 5 [1, 2, 3] false = .ok [1, 2, 3, 1, 9] := by
  decide +kernel

/-- A span of `p` zero bytes and a stream. -/
def padded (p : ℕ) (stream : List UInt8) : List UInt8 := List.replicate p 0 ++ stream

theorem padded_drop (p k : ℕ) (stream : List UInt8) :
    (padded p stream).drop (p + k) = stream.drop k := by
  unfold padded
  rw [← List.drop_drop, List.drop_left' (List.length_replicate ..)]

theorem padded_getElem? (p : ℕ) (stream : List UInt8) : (padded p stream)[p]? = stream[0]? := by
  unfold padded
  rw [List.getElem?_append_right (by rw [List.length_replicate]), List.length_replicate,
    Nat.sub_self]

theorem firstNonZero_padded (p : ℕ) {b : UInt8} (hb : b ≠ 0) (rest : List UInt8) :
    firstNonZero (padded p (b :: rest)) = some p := by
  simp [firstNonZero, padded, List.findIdx?_cons, hb]

/-- No window that starts with a zero byte is the magic. -/
theorem zstdStart_cons (span : List UInt8) :
    zstdStart (0 :: span) = (zstdStart span).map (· + 1) := by
  unfold zstdStart
  by_cases hlen : 3 ≤ span.length
  · have hcount : (0 :: span).length - 3 = (span.length - 3) + 1 := by
      rw [List.length_cons]
      omega
    rw [hcount, List.range_succ_eq_map, List.find?_cons_of_neg, List.find?_map]
    · rfl
    · simp [zstdMagic]
  · have hnone : span.length - 3 = 0 := by omega
    have hnone' : (0 :: span).length - 3 = 0 := by
      rw [List.length_cons]
      omega
    rw [hnone, hnone']
    rfl

theorem zstdStart_padded (p : ℕ) (stream : List UInt8) :
    zstdStart (padded p stream) = (zstdStart stream).map (p + ·) := by
  induction p with
  | zero => simp [padded]
  | succ p ih =>
    have hcons : padded (p + 1) stream = 0 :: padded p stream := rfl
    rw [hcons, zstdStart_cons, ih, Option.map_map]
    congr 1
    funext k
    show p + k + 1 = p + 1 + k
    omega

section Arms

variable (codecs : Codecs ρ) (p outlen : ℕ) {b : UInt8} (hb : b ≠ 0) (rest : List UInt8)

include hb

theorem lz4Pcluster_padded (win : List UInt8) :
    lz4Pcluster codecs (padded p (b :: rest)) outlen win true =
      lz4Pcluster codecs (b :: rest) outlen win true := by
  have hstart : firstNonZero (b :: rest) = some 0 := firstNonZero_padded 0 hb rest
  have hdrop : (padded p (b :: rest)).drop p = b :: rest := padded_drop p 0 (b :: rest)
  unfold lz4Pcluster lz4Start
  rw [firstNonZero_padded p hb, hstart]
  simp only [if_true, okOr, ok_bind, hdrop, List.drop_zero]

theorem lzmaPcluster_padded (dictSize : ℕ) :
    lzmaPcluster codecs (padded p (b :: rest)) outlen dictSize =
      lzmaPcluster codecs (b :: rest) outlen dictSize := by
  have hstart : firstNonZero (b :: rest) = some 0 := firstNonZero_padded 0 hb rest
  have hdrop : (padded p (b :: rest)).drop p = b :: rest := padded_drop p 0 (b :: rest)
  unfold lzmaPcluster
  rw [firstNonZero_padded p hb, hstart]
  simp only [okOr, ok_bind, hdrop, padded_getElem?, List.drop_zero]

omit hb in
theorem zstdPcluster_padded (stream : List UInt8) :
    zstdPcluster codecs (padded p stream) outlen = zstdPcluster codecs stream outlen := by
  unfold zstdPcluster
  rw [zstdStart_padded]
  cases zstdStart stream with
  | none => rfl
  | some start =>
    simp only [Option.map_some, okOr, ok_bind, padded_drop]

end Arms

theorem decode_deflate {input : List UInt8} {outlen : ℕ} (hcap : outlen ≤ maxDecompressedBlockBytes) :
    decode codecs .deflate input outlen =
      okOr (codecs.inflateRaw input outlen) (.decompress "raw inflate failed") := by
  unfold decode
  rw [checkedBlockLen_eq_ok.mpr ⟨hcap, rfl⟩]
  rfl

theorem decode_tooLarge {input : List UInt8} {outlen : ℕ}
    (hcap : maxDecompressedBlockBytes < outlen) :
    decode codecs .deflate input outlen = fail (.fileTooLarge outlen maxDecompressedBlockBytes) := by
  unfold decode
  rw [show checkedBlockLen outlen = _ from checkedLen_of_lt hcap]
  rfl

theorem deflateStarts_cons {span : List UInt8} {outlen start : ℕ} {last : FoldError}
    {starts : List ℕ} (hcap : outlen ≤ maxDecompressedBlockBytes) :
    deflateStarts codecs span outlen last (start :: starts) =
      match codecs.inflateRaw (span.drop start) outlen with
      | some v => if v.length = outlen then .ok v else deflateStarts codecs span outlen last starts
      | none => deflateStarts codecs span outlen (.decompress "raw inflate failed") starts := by
  rw [deflateStarts, decode_deflate hcap]
  cases codecs.inflateRaw (span.drop start) outlen with
  | none => rfl
  | some v => rfl

/-- The stream decoded from the first padding byte does not get in the way: it has
another length than `outlen`, or it decodes to what the stream does; and where it does
not decode, the stream does not decode to another length. -/
def PaddingHarmless (codecs : Codecs ρ) (p : ℕ) (stream : List UInt8) (outlen : ℕ) : Prop :=
  (∀ v, codecs.inflateRaw (padded p stream) outlen = some v → v.length = outlen →
      codecs.inflateRaw stream outlen = some v) ∧
    (codecs.inflateRaw (padded p stream) outlen = none →
      ∀ w, codecs.inflateRaw stream outlen = some w → w.length = outlen)

/-- The outcome of the deflate arm, from what the span and the stream inflate to. -/
def firstThen (outlen : ℕ) (whole stream : Option (List UInt8)) : Outcome (List UInt8) :=
  match whole, stream with
  | some v, some w =>
    if v.length = outlen then .ok v
    else if w.length = outlen then .ok w
    else fail (.corrupt "erofs deflate: no valid stream start")
  | some v, none => if v.length = outlen then .ok v else fail (.decompress "raw inflate failed")
  | none, some w => if w.length = outlen then .ok w else fail (.decompress "raw inflate failed")
  | none, none => fail (.decompress "raw inflate failed")

theorem deflatePcluster_padded (codecs : Codecs ρ) (p : ℕ) {outlen : ℕ} {b : UInt8} (hb : b ≠ 0)
    (rest : List UInt8) (hcap : outlen ≤ maxDecompressedBlockBytes) :
    deflatePcluster codecs (padded p (b :: rest)) outlen =
      firstThen outlen (codecs.inflateRaw (padded p (b :: rest)) outlen)
        (codecs.inflateRaw (b :: rest) outlen) := by
  have hdrop : (padded p (b :: rest)).drop p = b :: rest := padded_drop p 0 (b :: rest)
  unfold deflatePcluster
  rw [firstNonZero_padded p hb]
  dsimp only [Option.getD_some]
  rw [deflateStarts_cons hcap, List.drop_zero]
  simp only [deflateStarts_cons hcap, hdrop]
  cases codecs.inflateRaw (padded p (b :: rest)) outlen with
  | none =>
    cases codecs.inflateRaw (b :: rest) outlen with
    | none => rfl
    | some w => rfl
  | some v =>
    cases codecs.inflateRaw (b :: rest) outlen with
    | none => rfl
    | some w => rfl

theorem deflatePcluster_padded_iff (codecs : Codecs ρ) (p : ℕ) {outlen : ℕ} {b : UInt8} (hb : b ≠ 0)
    (rest : List UInt8) (hcap : outlen ≤ maxDecompressedBlockBytes) :
    deflatePcluster codecs (padded p (b :: rest)) outlen = deflatePcluster codecs (b :: rest) outlen ↔
      PaddingHarmless codecs p (b :: rest) outlen := by
  have halone : deflatePcluster codecs (b :: rest) outlen = firstThen outlen
      (codecs.inflateRaw (b :: rest) outlen) (codecs.inflateRaw (b :: rest) outlen) :=
    deflatePcluster_padded codecs 0 hb rest hcap
  rw [deflatePcluster_padded codecs p hb rest hcap, halone]
  unfold PaddingHarmless firstThen
  cases hwhole : codecs.inflateRaw (padded p (b :: rest)) outlen with
  | none =>
    cases hstream : codecs.inflateRaw (b :: rest) outlen with
    | none => simp
    | some w => by_cases hw : w.length = outlen <;> simp [hw, fail]
  | some v =>
    cases hstream : codecs.inflateRaw (b :: rest) outlen with
    | none => by_cases hv : v.length = outlen <;> simp [hv, fail]
    | some w =>
      by_cases hv : v.length = outlen
      · by_cases hw : w.length = outlen
        · simp [hv, hw, eq_comm]
        · have hne : w ≠ v := fun h => hw (h ▸ hv)
          simp [hv, hw, hne, fail]
      · simp [hv]

theorem deflatePcluster_tooLarge {span : List UInt8} {outlen : ℕ}
    (hcap : maxDecompressedBlockBytes < outlen) :
    deflatePcluster codecs span outlen = fail (.fileTooLarge outlen maxDecompressedBlockBytes) := by
  unfold deflatePcluster
  dsimp only
  rw [deflateStarts, decode_tooLarge hcap]
  rfl

/-- Padding before a stream does not change what any algorithm makes of it, exactly
when the deflate decoder is not misled by the start it tries first. -/
theorem decodeHead_padded_iff (codecs : Codecs ρ) (algo p outlen : ℕ) {b : UInt8} (hb : b ≠ 0)
    (rest priorOut : List UInt8) (lzmaDict : Option ℕ) :
    decodeHead codecs algo (padded p (b :: rest)) outlen priorOut lzmaDict true =
        decodeHead codecs algo (b :: rest) outlen priorOut lzmaDict true ↔
      (algo = algoDeflate → outlen ≤ maxDecompressedBlockBytes →
        PaddingHarmless codecs p (b :: rest) outlen) := by
  unfold decodeHead
  by_cases hlz4 : algo = algoLz4
  · rw [if_pos hlz4, if_pos hlz4]
    refine iff_of_true (lz4Pcluster_padded codecs p outlen hb rest _) ?_
    intro hdeflate
    exact absurd (hlz4.symm.trans hdeflate) (by decide)
  · rw [if_neg hlz4, if_neg hlz4]
    by_cases hdeflate : algo = algoDeflate
    · rw [if_pos hdeflate, if_pos hdeflate]
      by_cases hcap : outlen ≤ maxDecompressedBlockBytes
      · rw [deflatePcluster_padded_iff codecs p hb rest hcap]
        exact ⟨fun h _ _ => h, fun h => h hdeflate hcap⟩
      · refine iff_of_true ?_ fun _ h => absurd h hcap
        have hlarge := Nat.lt_of_not_le hcap
        rw [deflatePcluster_tooLarge hlarge, deflatePcluster_tooLarge hlarge]
    · rw [if_neg hdeflate, if_neg hdeflate]
      refine iff_of_true ?_ fun h => absurd h hdeflate
      split_ifs
      · exact zstdPcluster_padded codecs p outlen (b :: rest)
      · simp only [lzmaPcluster_padded codecs p outlen hb rest]
      · rfl

/-- A decoder of stored blocks alone. -/
def storedOnly : Codecs Unit where
  __ := noStreams
  inflateRaw := StoredBlocks.inflateWithLimit
  inflateRaw_le := StoredBlocks.inflateWithLimit_le

/-- A block of 1792 bytes and an empty last one. Read from one byte before, it is a
block of 248 bytes and a last one of 1544. -/
def misreadStream : List UInt8 :=
  [0xF8, 0x00, 0x07, 0xFF, 0xF8] ++ List.replicate 247 0x41 ++ [0x01, 0x08, 0x06, 0xF7, 0xF9] ++
    List.replicate 1540 0x41 ++ [0x01, 0x00, 0x00, 0xFF, 0xFF]

theorem decodeHead_padded_iff_misread :
    decodeHead storedOnly algoDeflate (padded 1 misreadStream) 1792 [] none true =
        decodeHead storedOnly algoDeflate misreadStream 1792 [] none true ↔
      (algoDeflate = algoDeflate → 1792 ≤ maxDecompressedBlockBytes →
        PaddingHarmless storedOnly 1 misreadStream 1792) :=
  decodeHead_padded_iff storedOnly algoDeflate 1 1792 (by decide) _ [] none

/-- The stream decodes to exactly the length asked for, and with one byte of padding
before it to other bytes. -/
theorem decodeHead_misread :
    (decodeHead storedOnly algoDeflate misreadStream 1792 [] none true).map List.length = .ok 1792 ∧
      (decodeHead storedOnly algoDeflate (padded 1 misreadStream) 1792 [] none true).map
        List.length = .ok 1792 ∧
      decodeHead storedOnly algoDeflate (padded 1 misreadStream) 1792 [] none true ≠
        decodeHead storedOnly algoDeflate misreadStream 1792 [] none true := by
  decide +kernel

end Lamfold.Erofs
