import Lamfold.Substrate

/-!
The shared decompression-codec registry. The decoders themselves are code of
other packages and enter as functions of which only this is known: none returns
more bytes than it was asked for.
-/
namespace Lamfold

open Effects

/-- The compressors a read-only format can use. -/
inductive Codec
  | deflate
  | zlib
  | lz4
  | xz
  | zstd
  | lzo
  deriving DecidableEq, Repr

/-- The decoders. `none` is a decoder's error; a reader is a state of type `ρ`
that `read` asks for at most the given number of bytes. -/
structure Codecs (ρ : Type) where
  inflateRaw : List UInt8 → ℕ → Option (List UInt8)
  inflateZlib : List UInt8 → ℕ → Option (List UInt8)
  lz4Block : List UInt8 → ℕ → Option (List UInt8)
  lz4WithDict : List UInt8 → ℕ → List UInt8 → Option (List UInt8)
  lzo : List UInt8 → ℕ → Option (List UInt8)
  zstdReader : List UInt8 → Option ρ
  xzReader : List UInt8 → ρ
  lzmaReader : List UInt8 → ℕ → UInt8 → ℕ → Option ρ
  read : ρ → ℕ → Option (List UInt8 × ρ)
  inflateRaw_le : ∀ {input n out}, inflateRaw input n = some out → out.length ≤ n
  inflateZlib_le : ∀ {input n out}, inflateZlib input n = some out → out.length ≤ n
  lz4Block_le : ∀ {input n out}, lz4Block input n = some out → out.length ≤ n
  lz4WithDict_le : ∀ {input n dict out}, lz4WithDict input n dict = some out → out.length ≤ n
  lzo_le : ∀ {input n out}, lzo input n = some out → out.length ≤ n
  read_le : ∀ {r n out r'}, read r n = some (out, r') → out.length ≤ n

/-- Decoders that accept no stream. -/
def noStreams : Codecs Unit where
  inflateRaw _ _ := none
  inflateZlib _ _ := none
  lz4Block _ _ := none
  lz4WithDict _ _ _ := none
  lzo _ _ := none
  zstdReader _ := none
  xzReader _ := ()
  lzmaReader _ _ _ _ := none
  read _ _ := none
  inflateRaw_le := by simp
  inflateZlib_le := by simp
  lz4Block_le := by simp
  lz4WithDict_le := by simp
  lzo_le := by simp
  read_le := by simp

/-- Reading until `n` bytes have come does not meet the end of the stream. -/
inductive Codecs.Yields {ρ : Type} (codecs : Codecs ρ) : ρ → ℕ → Prop
  | done (reader : ρ) : Yields codecs reader 0
  | chunk {reader reader' : ρ} {n : ℕ} {bytes : List UInt8} :
      codecs.read reader n = some (bytes, reader') → bytes ≠ [] →
      Yields codecs reader' (n - bytes.length) → Yields codecs reader n

section Decode

variable {ρ : Type} (codecs : Codecs ρ)

/-- The `while filled < expected_len` loop of the reader codecs: what it read
before the end of the stream, and no more than asked for. -/
def readUpTo (reader : ρ) (want : ℕ) (what : String) : Outcome (List UInt8) :=
  if want = 0 then .ok []
  else
    match codecs.read reader want with
    | none => fail (.decompress what)
    | some (chunk, reader) =>
      if chunk = [] then .ok []
      else do
        let rest ← readUpTo reader (want - chunk.length) what
        return chunk ++ rest
  termination_by want
  decreasing_by
    have hpos : 0 < chunk.length := List.length_pos_iff.mpr ‹_›
    omega

def zstdDecode (input : List UInt8) (expectedLen : ℕ) : Outcome (List UInt8) := do
  let reader ← okOr (codecs.zstdReader input) (.decompress "zstd frame init failed")
  readUpTo codecs reader expectedLen "zstd read failed"

def xzDecode (input : List UInt8) (expectedLen : ℕ) : Outcome (List UInt8) :=
  readUpTo codecs (codecs.xzReader input) expectedLen "xz read failed"

/-- Decompress `input`, whose decompressed size the file system recorded as
`expectedLen`; it bounds the output. -/
def decode (codec : Codec) (input : List UInt8) (expectedLen : ℕ) : Outcome (List UInt8) := do
  let _ ← checkedBlockLen expectedLen
  match codec with
  | .deflate => okOr (codecs.inflateRaw input expectedLen) (.decompress "raw inflate failed")
  | .zlib => okOr (codecs.inflateZlib input expectedLen) (.decompress "zlib inflate failed")
  | .lz4 => okOr (codecs.lz4Block input expectedLen) (.decompress "lz4 block decompress failed")
  | .xz => xzDecode codecs input expectedLen
  | .zstd => zstdDecode codecs input expectedLen
  | .lzo => okOr (codecs.lzo input expectedLen) (.decompress "lzo decompress failed")

/-- LZ4 block decode with the prior output as a dictionary. -/
def lz4BlockWithDict (input : List UInt8) (expectedLen : ℕ) (dict : List UInt8) :
    Outcome (List UInt8) := do
  let _ ← checkedBlockLen expectedLen
  let out ← okOr (codecs.lz4WithDict input expectedLen dict)
    (.decompress "erofs lz4 dict decompress failed")
  if out.length ≠ expectedLen then fail (.decompress "erofs lz4 dict decompress: short output")
  else return out

/-- The first byte of `span` is a slot for LZMA1's leading zero. -/
def microlzmaBlockDecode (span : List UInt8) (props : UInt8) (dictSize expectedLen : ℕ) :
    Outcome (List UInt8) := do
  let _ ← checkedBlockLen expectedLen
  match span with
  | [] => fail (.decompress "erofs microlzma: empty span")
  | _ :: body => do
    let window := max dictSize expectedLen
    let reader ← okOr (codecs.lzmaReader (0 :: body) expectedLen props window)
      (.decompress "erofs microlzma: init")
    let out ← readUpTo codecs reader expectedLen "erofs microlzma: read"
    if out.length ≠ expectedLen then fail (.decompress "erofs microlzma: short output")
    else return out

variable {codecs}

theorem readUpTo_le {reader : ρ} {want : ℕ} {what : String} {out : List UInt8}
    (h : readUpTo codecs reader want what = .ok out) : out.length ≤ want := by
  fun_induction readUpTo codecs reader want what generalizing out with
  | case1 reader =>
    cases h
    exact Nat.le_refl 0
  | case2 reader want hwant hread => exact absurd h (fail_ne_ok _ _)
  | case3 reader want hwant reader' hread =>
    cases h
    exact Nat.zero_le want
  | case4 reader want hwant chunk reader' hread hchunk ih =>
    obtain ⟨rest, hrest, h⟩ := bind_eq_ok.mp h
    cases h
    have hle := codecs.read_le hread
    have hrest' := ih hrest
    rw [List.length_append]
    omega

/-- What was read has the size asked for exactly when the stream holds that much. -/
theorem readUpTo_length_iff {reader : ρ} {want : ℕ} {what : String} {out : List UInt8}
    (h : readUpTo codecs reader want what = .ok out) :
    out.length = want ↔ codecs.Yields reader want := by
  fun_induction readUpTo codecs reader want what generalizing out with
  | case1 reader =>
    cases h
    exact ⟨fun _ => .done reader, fun _ => rfl⟩
  | case2 reader want hwant hread => exact absurd h (fail_ne_ok _ _)
  | case3 reader want hwant reader' hread =>
    cases h
    constructor
    · intro hlen
      exact absurd hlen.symm hwant
    · intro hyields
      cases hyields with
      | done => exact absurd rfl hwant
      | chunk hread' hne _ =>
        obtain ⟨rfl, -⟩ := Prod.mk.inj (Option.some.inj (hread.symm.trans hread'))
        exact absurd rfl hne
  | case4 reader want hwant chunk reader' hread hchunk ih =>
    obtain ⟨rest, hrest, h⟩ := bind_eq_ok.mp h
    cases h
    have hle := codecs.read_le hread
    have hiff := ih hrest
    rw [List.length_append]
    constructor
    · intro hlen
      exact .chunk hread hchunk (hiff.mp (by omega))
    · intro hyields
      cases hyields with
      | done => exact absurd rfl hwant
      | chunk hread' _ hyields =>
        obtain ⟨rfl, rfl⟩ := Prod.mk.inj (Option.some.inj (hread.symm.trans hread'))
        have hlen := hiff.mpr hyields
        omega

/-- No codec returns more than the recorded size. -/
theorem decode_le {codec : Codec} {input out : List UInt8} {expectedLen : ℕ}
    (h : decode codecs codec input expectedLen = .ok out) : out.length ≤ expectedLen := by
  obtain ⟨n, -, h⟩ := bind_eq_ok.mp h
  cases codec with
  | deflate => exact codecs.inflateRaw_le (okOr_eq_ok.mp h)
  | zlib => exact codecs.inflateZlib_le (okOr_eq_ok.mp h)
  | lz4 => exact codecs.lz4Block_le (okOr_eq_ok.mp h)
  | xz => exact readUpTo_le h
  | zstd =>
    obtain ⟨reader, -, h⟩ := bind_eq_ok.mp h
    exact readUpTo_le h
  | lzo => exact codecs.lzo_le (okOr_eq_ok.mp h)

theorem microlzmaBlockDecode_length {span out : List UInt8} {props : UInt8}
    {dictSize expectedLen : ℕ}
    (h : microlzmaBlockDecode codecs span props dictSize expectedLen = .ok out) :
    out.length = expectedLen := by
  obtain ⟨-, -, h⟩ := bind_eq_ok.mp h
  cases span with
  | nil => exact absurd h (fail_ne_ok _ _)
  | cons slot body =>
    obtain ⟨reader, -, h⟩ := bind_eq_ok.mp h
    obtain ⟨out', -, h⟩ := bind_eq_ok.mp h
    split at h
    · exact absurd h (fail_ne_ok _ _)
    · rename_i hlen
      cases h
      exact not_not.mp hlen

end Decode

end Lamfold
