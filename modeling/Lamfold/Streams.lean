import Lamfold.Substrate

/-!
Whole-stream decompression as its callers see it: the formats recognised by
their magic bytes, and a decoder that reports how much input a stream used.
-/
namespace Lamfold.Streams

/-- A self-delimiting compressed stream, recognised by its magic bytes. -/
inductive StreamCodec
  | gzip
  | zstd
  | xz
  | lzma
  | lz4Legacy
  | bzip2
  | lzo
  deriving DecidableEq, Repr

def magics : List (List UInt8 × StreamCodec) := [
  ([0x1F, 0x8B], .gzip),
  ([0x28, 0xB5, 0x2F, 0xFD], .zstd),
  ([0xFD, 0x37, 0x7A, 0x58, 0x5A, 0x00], .xz),
  ([0x5D, 0x00, 0x00], .lzma),
  ([0x02, 0x21, 0x4C, 0x18], .lz4Legacy),
  ([0x42, 0x5A, 0x68], .bzip2),
  ([0x89, 0x4C, 0x5A, 0x4F], .lzo)]

/-- The stream format `input` starts with, if any. -/
def sniff (input : List UInt8) : Option StreamCodec :=
  (magics.find? fun entry => entry.1.isPrefixOf input).map Prod.snd

/-- `decode_stream`, by its contract: a decoded stream used some of the input,
and its output is at most the cap. -/
structure StreamDecoder where
  decodeStream : StreamCodec → List UInt8 → ℕ → Outcome (List UInt8 × ℕ)
  used_pos : ∀ {codec input cap out used},
    decodeStream codec input cap = .ok (out, used) → 0 < used
  used_le : ∀ {codec input cap out used},
    decodeStream codec input cap = .ok (out, used) → used ≤ input.length
  out_le : ∀ {codec input cap out used},
    decodeStream codec input cap = .ok (out, used) → out.length ≤ cap

end Lamfold.Streams
