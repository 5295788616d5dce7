import Lamfold.Codec
import Lamfold.ErofsIndex

/-!
The decoding of one EROFS pcluster from the blocks it occupies. An LZ4 stream
may refer back to the output decoded before it; the other streams stand alone
and end at the last byte of their blocks.
-/
namespace Lamfold.Erofs

open Effects Bytes

variable {ρ : Type} (codecs : Codecs ρ)

/-- `lz4_max_distance` is at most 65535. -/
def lz4Window : ℕ := 65536

def algoLz4 : ℕ := 0

def algoLzma : ℕ := 1

def algoDeflate : ℕ := 2

def algoZstd : ℕ := 3

/-- The largest valid LZMA properties byte. -/
def lzmaPropsMax : ℕ := 224

def firstNonZero (span : List UInt8) : Option ℕ := span.findIdx? (· ≠ 0)

def lz4Start (span : List UInt8) (zeroPadding : Bool) : Outcome ℕ :=
  if zeroPadding then okOr (firstNonZero span) (.corrupt "erofs lz4: all-zero pcluster")
  else .ok 0

def lz4Pcluster (span : List UInt8) (outlen : ℕ) (win : List UInt8) (zeroPadding : Bool) :
    Outcome (List UInt8) := do
  let start ← lz4Start span zeroPadding
  let v ← lz4BlockWithDict codecs (span.drop start) outlen win
  if v.length = outlen then return v
  else fail (.corrupt "erofs lz4: stream decoded to the wrong length")

/-- The stream start whose output has the right length; `last` is the error of
the start tried before. A refusal is the real cause and ends the search. -/
def deflateStarts (span : List UInt8) (outlen : ℕ) (last : FoldError) :
    List ℕ → Outcome (List UInt8)
  | [] => fail last
  | start :: starts =>
    match decode codecs .deflate (span.drop start) outlen with
    | .ok v => if v.length = outlen then .ok v else deflateStarts span outlen last starts
    | .error (.err (.unsupported what)) => fail (.unsupported what)
    | .error (.err (.fileTooLarge size max)) => fail (.fileTooLarge size max)
    | .error (.err e) => deflateStarts span outlen e starts
    | .error fault => .error fault

def deflatePcluster (span : List UInt8) (outlen : ℕ) : Outcome (List UInt8) :=
  let fnz := (firstNonZero span).getD 0
  deflateStarts codecs span outlen (.corrupt "erofs deflate: no valid stream start") [0, fnz]

def zstdMagic : List UInt8 := [0x28, 0xb5, 0x2f, 0xfd]

/-- The first of the four-byte windows that is the frame magic. -/
def zstdStart (span : List UInt8) : Option ℕ :=
  (List.range (span.length - 3)).find? fun i => (span.drop i).take 4 == zstdMagic

def zstdPcluster (span : List UInt8) (outlen : ℕ) : Outcome (List UInt8) := do
  let start ← okOr (zstdStart span) (.corrupt "erofs zstd: frame magic not found")
  decode codecs .zstd (span.drop start) outlen

/-- The first non-zero byte holds the properties inverted. -/
def lzmaPcluster (span : List UInt8) (outlen dictSize : ℕ) : Outcome (List UInt8) := do
  let start ← okOr (firstNonZero span) (.corrupt "erofs lzma: all-zero span")
  let first ← unwrap span[start]?
  let props := ~~~first
  if props.toNat > lzmaPropsMax then fail (.corrupt "erofs lzma: invalid properties byte")
  else microlzmaBlockDecode codecs (span.drop start) props dictSize outlen

def decodeHead (algo : ℕ) (span : List UInt8) (outlen : ℕ) (priorOut : List UInt8)
    (lzmaDict : Option ℕ) (lz4ZeroPadding : Bool) : Outcome (List UInt8) :=
  if algo = algoLz4 then
    let win := priorOut.drop (priorOut.length - lz4Window)
    lz4Pcluster codecs span outlen win lz4ZeroPadding
  else if algo = algoDeflate then deflatePcluster codecs span outlen
  else if algo = algoZstd then zstdPcluster codecs span outlen
  else if algo = algoLzma then do
    let dict ← okOr lzmaDict (.unsupported "erofs: lzma config unavailable")
    lzmaPcluster codecs span outlen dict
  else fail (.unsupported "erofs: unknown compressed head algorithm")

/-- Decode one pcluster's `span` to `outlen` bytes; `priorOut` is the output
decoded so far. -/
def decodePcluster (ty : LcType) (algo : ℕ) (span : List UInt8) (outlen : ℕ)
    (priorOut : List UInt8) (lzmaDict : Option ℕ) (lz4ZeroPadding : Bool) :
    Outcome (List UInt8) :=
  match ty with
  | .plain => do
    let _ ← checkedBlockLen outlen
    okOr (slice span 0 outlen) (.corrupt "erofs: plain pcluster shorter than output")
  | .head1 | .head2 => decodeHead codecs algo span outlen priorOut lzmaDict lz4ZeroPadding
  | .nonhead => fail (.corrupt "erofs: non-head pcluster in decode")

variable {codecs}

theorem lz4Pcluster_length {span win out : List UInt8} {outlen : ℕ} {zeroPadding : Bool}
    (h : lz4Pcluster codecs span outlen win zeroPadding = .ok out) : out.length = outlen := by
  obtain ⟨start, -, h⟩ := bind_eq_ok.mp h
  obtain ⟨v, -, h⟩ := bind_eq_ok.mp h
  by_cases hlen : v.length = outlen
  · rw [if_pos hlen] at h
    cases h
    exact hlen
  · rw [if_neg hlen] at h
    exact absurd h (fail_ne_ok _ _)

theorem deflateStarts_length {span out : List UInt8} {outlen : ℕ} {last : FoldError}
    {starts : List ℕ} (h : deflateStarts codecs span outlen last starts = .ok out) :
    out.length = outlen := by
  induction starts generalizing last with
  | nil => exact absurd h (fail_ne_ok _ _)
  | cons start starts ih =>
    rw [deflateStarts] at h
    split at h
    · rename_i v hdecode
      by_cases hlen : v.length = outlen
      · rw [if_pos hlen] at h
        cases h
        exact hlen
      · rw [if_neg hlen] at h
        exact ih h
    · exact absurd h (fail_ne_ok _ _)
    · exact absurd h (fail_ne_ok _ _)
    · exact ih h
    · cases h

theorem lzmaPcluster_length {span out : List UInt8} {outlen dictSize : ℕ}
    (h : lzmaPcluster codecs span outlen dictSize = .ok out) : out.length = outlen := by
  obtain ⟨start, -, h⟩ := bind_eq_ok.mp h
  obtain ⟨first, -, h⟩ := bind_eq_ok.mp h
  dsimp only at h
  split at h
  · exact absurd h (fail_ne_ok _ _)
  · exact microlzmaBlockDecode_length h

/-- The zstd frame in `span`, if there is one, holds `outlen` bytes. The decoder
does not check this, as it does for every other algorithm. -/
def FrameHolds (codecs : Codecs ρ) (span : List UInt8) (outlen : ℕ) : Prop :=
  ∀ start ∈ zstdStart span, ∀ reader ∈ codecs.zstdReader (span.drop start),
    codecs.Yields reader outlen

theorem zstdPcluster_length_iff {span out : List UInt8} {outlen : ℕ}
    (h : zstdPcluster codecs span outlen = .ok out) :
    out.length = outlen ↔ FrameHolds codecs span outlen := by
  obtain ⟨start, hstart, h⟩ := bind_eq_ok.mp h
  obtain ⟨-, -, h⟩ := bind_eq_ok.mp h
  obtain ⟨reader, hreader, h⟩ := bind_eq_ok.mp h
  rw [okOr_eq_ok] at hstart hreader
  rw [readUpTo_length_iff h]
  constructor
  · intro hyields start' hstart' reader' hreader'
    obtain rfl : start = start' := Option.some.inj (hstart.symm.trans hstart')
    obtain rfl : reader = reader' := Option.some.inj (hreader.symm.trans hreader')
    exact hyields
  · intro hholds
    exact hholds start hstart reader hreader

/-- A pcluster whose decoder does not check the length of its output. -/
def Unchecked (ty : LcType) (algo : ℕ) : Prop := (ty = .head1 ∨ ty = .head2) ∧ algo = algoZstd

theorem decodeHead_length {span priorOut out : List UInt8} {algo outlen : ℕ}
    {lzmaDict : Option ℕ} {lz4ZeroPadding : Bool} (halgo : algo ≠ algoZstd)
    (h : decodeHead codecs algo span outlen priorOut lzmaDict lz4ZeroPadding = .ok out) :
    out.length = outlen := by
  unfold decodeHead at h
  split_ifs at h
  · exact lz4Pcluster_length h
  · exact deflateStarts_length h
  · obtain ⟨dict, -, h⟩ := bind_eq_ok.mp h
    exact lzmaPcluster_length h
  · exact absurd h (fail_ne_ok _ _)

theorem decodeHead_zstd (span priorOut : List UInt8) (outlen : ℕ) (lzmaDict : Option ℕ)
    (lz4ZeroPadding : Bool) :
    decodeHead codecs algoZstd span outlen priorOut lzmaDict lz4ZeroPadding =
      zstdPcluster codecs span outlen := rfl

/-- What a pcluster decodes to fills its extent, unless it is a zstd frame that
holds less. -/
theorem decodePcluster_length_iff {ty : LcType} {span priorOut out : List UInt8}
    {algo outlen : ℕ} {lzmaDict : Option ℕ} {lz4ZeroPadding : Bool}
    (h : decodePcluster codecs ty algo span outlen priorOut lzmaDict lz4ZeroPadding = .ok out) :
    out.length = outlen ↔ (Unchecked ty algo → FrameHolds codecs span outlen) := by
  have hhead (hty : ty = .head1 ∨ ty = .head2)
      (h : decodeHead codecs algo span outlen priorOut lzmaDict lz4ZeroPadding = .ok out) :
      out.length = outlen ↔ (Unchecked ty algo → FrameHolds codecs span outlen) := by
    by_cases halgo : algo = algoZstd
    · subst halgo
      rw [decodeHead_zstd] at h
      rw [zstdPcluster_length_iff h]
      exact ⟨fun hholds _ => hholds, fun hholds => hholds ⟨hty, rfl⟩⟩
    · exact ⟨fun _ hun => absurd hun.2 halgo, fun _ => decodeHead_length halgo h⟩
  cases ty with
  | plain =>
    obtain ⟨-, -, h⟩ := bind_eq_ok.mp h
    have hlen := slice_length (okOr_eq_ok.mp h)
    refine ⟨fun _ hun => ?_, fun _ => hlen⟩
    rcases hun.1 with hty | hty
    · cases hty
    · cases hty
  | head1 => exact hhead (Or.inl rfl) h
  | head2 => exact hhead (Or.inr rfl) h
  | nonhead => exact absurd h (fail_ne_ok _ _)

end Lamfold.Erofs
