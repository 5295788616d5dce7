import Lamfold.Loops
import Lamfold.Streams

/-!
Whole-stream decompression for data whose decompressed size is not recorded anywhere: a
stream is decoded to its own end, its output is capped, and the input it used is
reported. The decoders themselves are code of other packages.
-/
namespace Lamfold.Streams

open Effects Bytes Loops

/-- How a step of the inflater ended. -/
inductive InflateStatus
  | streamEnd
  | more
  | failed
  deriving DecidableEq, Repr

/-- What a step of the inflater reports, and the buffer it wrote to. -/
structure InflateResult (δ : Type) where
  state : δ
  consumed : ℕ
  written : ℕ
  chunk : List UInt8
  status : InflateStatus

/-- What a read reports: how many bytes it wrote to the buffer, and the input it left. -/
structure ReadResult (ρ : Type) where
  reader : ρ
  rest : List UInt8
  count : ℕ
  chunk : List UInt8

/-- A reader is read, in pieces of at most `n` bytes, from one input to the end of its
stream, which leaves another. -/
inductive Drains {ρ : Type} (read : ρ → List UInt8 → ℕ → Option (ReadResult ρ)) (n : ℕ) :
    ρ → List UInt8 → List UInt8 → Prop
  | done {reader : ρ} {rest : List UInt8} {r : ReadResult ρ}
      (hread : read reader rest n = some r) (hcount : r.count = 0) :
      Drains read n reader rest r.rest
  | more {reader : ρ} {rest last : List UInt8} {r : ReadResult ρ}
      (hread : read reader rest n = some r) (hcount : r.count ≠ 0)
      (htail : Drains read n r.reader r.rest last) : Drains read n reader rest last

/-- Bytes decoded per step. -/
def chunkLen : ℕ := 64 * 1024

/-- The inflater, with states of type `δ`; the readers, with states of type `ρ`, which
take their input from a slice and leave the rest of it; the LZ4 block decoder; and
whether the allocator has room for so many bytes more. `none` is a decoder's error. No
decoder reports more bytes than it was offered, a zstd frame is at least its magic, and
an xz or lzma stream at least one byte. -/
structure Decoders (δ ρ : Type) where
  inflateInit : δ
  inflate : δ → List UInt8 → ℕ → InflateResult δ
  zstdReader : List UInt8 → Option (ρ × List UInt8)
  xzReader : List UInt8 → ρ × List UInt8
  lzmaReader : List UInt8 → Option (ρ × List UInt8)
  read : ρ → List UInt8 → ℕ → Option (ReadResult ρ)
  lz4Block : List UInt8 → ℕ → Option (List UInt8)
  reserve : ℕ → ℕ → Bool
  consumed_le : ∀ state input n, (inflate state input n).consumed ≤ input.length
  written_le : ∀ state input n, (inflate state input n).written ≤ n
  inflate_chunk : ∀ state input n, (inflate state input n).chunk.length = n
  count_le : ∀ {reader rest n r}, read reader rest n = some r → r.count ≤ n
  read_chunk : ∀ {reader rest n r}, read reader rest n = some r → r.chunk.length = n
  lz4Block_le : ∀ {block n out}, lz4Block block n = some out → out.length ≤ n
  zstd_magic : ∀ {input reader rest last}, zstdReader input = some (reader, rest) →
    Drains read chunkLen reader rest last → last.length + 4 ≤ input.length
  xz_byte : ∀ {input last}, Drains read chunkLen (xzReader input).1 (xzReader input).2 last →
    last.length < input.length
  lzma_byte : ∀ {input reader rest last}, lzmaReader input = some (reader, rest) →
    Drains read chunkLen reader rest last → last.length < input.length

/-- The codecs that a build has. -/
structure Features where
  deflate : Bool
  zstd : Bool
  xz : Bool
  lz4 : Bool

/-- `input.get(pos..)`. -/
def getFrom (input : List UInt8) (pos : ℕ) : Option (List UInt8) :=
  if pos ≤ input.length then some (input.drop pos) else none

section Decode

variable {δ ρ : Type} (d : Decoders δ ρ)

/-- Append `chunk` to `out`, refusing to grow past `maxOut`. -/
def pushCapped (out chunk : List UInt8) (maxOut : ℕ) : Outcome (List UInt8) :=
  let want := out.length + chunk.length
  if want > maxOut then fail (.fileTooLarge want maxOut)
  else if d.reserve out.length chunk.length then .ok (out ++ chunk)
  else fail (.decompress "stream output allocation failed")

/-- What has been read from a reader, the input it left, and its state. -/
structure Reading (ρ : Type) where
  reader : ρ
  rest : List UInt8
  out : List UInt8

/-- One turn of the loop of `read_all_capped`. The cap is an expression that is evaluated
in each turn. -/
def readTurn (maxOut : Outcome ℕ) (what : String) : Loop Fault (Reading ρ)
    (List UInt8 × List UInt8) :=
  fun s =>
    match d.read s.reader s.rest chunkLen with
    | none => fail (.decompress what)
    | some r =>
      if r.count = 0 then .ok (.inl (s.out, r.rest))
      else do
        let chunk ← unwrap (slice r.chunk 0 r.count)
        let maxOut ← maxOut
        let out ← pushCapped d s.out chunk maxOut
        return .inr ⟨r.reader, r.rest, out⟩

/-- An entry of the table of CRC-32 (IEEE 802.3, reflected). -/
def crc32Entry (i : ℕ) : UInt32 :=
  (List.range 8).foldl
    (fun c _ => if c &&& 1 ≠ 0 then (0xEDB88320 : UInt32) ^^^ (c >>> 1) else c >>> 1) (UInt32.ofNat i)

def crc32Table : List UInt32 := (List.range 256).map crc32Entry

/-- The checksum in a gzip trailer. -/
def crc32 (data : List UInt8) : UInt32 :=
  ~~~data.foldl (fun c b => crc32Table.getD ((c ^^^ b.toUInt32) &&& 0xFF).toNat 0 ^^^ (c >>> 8)) (~~~0)

example : crc32 [0x31, 0x32, 0x33, 0x34, 0x35, 0x36, 0x37, 0x38, 0x39] = 0xCBF43926 := by
  decide +kernel

def fhcrc : UInt8 := 0x02

def fextra : UInt8 := 0x04

def fname : UInt8 := 0x08

def fcomment : UInt8 := 0x10

/-- The position after the extra field, if there is one. -/
def skipExtra (input : List UInt8) (flg : UInt8) (pos : ℕ) : Outcome ℕ :=
  if flg &&& fextra ≠ 0 then do
    let xlen ← okOr (slice input pos 2) (.corrupt "gzip_header")
    return pos + (2 + leNat xlen)
  else .ok pos

/-- The position after a NUL-terminated field, if there is one. -/
def skipString (input : List UInt8) (flg flag : UInt8) (pos : ℕ) : Outcome ℕ :=
  if flg &&& flag ≠ 0 then do
    let nul ← okOr ((getFrom input pos).bind fun rest => rest.findIdx? (· == 0))
      (.corrupt "gzip_header")
    return pos + (nul + 1)
  else .ok pos

structure Inflating (δ : Type) where
  state : δ
  pos : ℕ
  out : List UInt8

/-- One turn of the loop of `inflate_raw_stream`. -/
def inflateTurn (input : List UInt8) (maxOut : ℕ) :
    Loop Fault (Inflating δ) (List UInt8 × ℕ) := fun s => do
  let rest ← unwrap (getFrom input s.pos)
  let r := d.inflate s.state rest chunkLen
  let pos := s.pos + r.consumed
  let chunk ← unwrap (slice r.chunk 0 r.written)
  let out ← pushCapped d s.out chunk maxOut
  match r.status with
  | .streamEnd => return .inl (out, pos)
  | .more =>
    if r.consumed > 0 ∨ r.written > 0 then return .inr ⟨r.state, pos, out⟩
    else fail (.corrupt "deflate_truncated")
  | .failed => fail (.corrupt "deflate_truncated")

def zstdFrameMagic : List UInt8 := [0x28, 0xB5, 0x2F, 0xFD]

/-- The size of the skippable frame that `rest` starts with, if it does. -/
def skippableSize (rest : List UInt8) : Outcome (Option ℕ) :=
  if rest.length ≥ 8 then do
    let first ← unwrap rest[0]?
    let magic ← unwrap (slice rest 1 3)
    if first &&& 0xF0 = 0x50 ∧ magic = [0x2A, 0x4D, 0x18] then do
      let size ← unwrap (slice rest 4 4)
      return some (leNat size)
    else return none
  else .ok none

/-- What has been decoded of a zstd stream, and the input left. -/
structure Frames where
  rest : List UInt8
  out : List UInt8
  frames : ℕ

def lz4LegacyMagic : List UInt8 := [0x02, 0x21, 0x4C, 0x18]

/-- A legacy block decompresses to at most 8 MiB. -/
def lz4LegacyBlock : ℕ := 8 * 2 ^ 20

/-- LZ4's worst-case compressed size for an 8 MiB block. -/
def lz4LegacyMaxCompressed : ℕ := lz4LegacyBlock + lz4LegacyBlock / 255 + 16

structure Blocks where
  pos : ℕ
  out : List UInt8

/-- The output with room for one more block. -/
def growBlock (out : List UInt8) (maxOut : ℕ) : Outcome (List UInt8) := do
  let left ← minus maxOut out.length
  let room := min lz4LegacyBlock left
  if d.reserve out.length room then .ok (out ++ List.replicate room 0)
  else fail (.decompress "stream output allocation failed")

/-- Decode `block` behind `out`, in the room that `grown` has for it. -/
def decodeBlock (block out grown : List UInt8) (maxOut : ℕ) : Outcome (List UInt8) := do
  let start := out.length
  let target ← unwrap (getFrom grown start)
  match d.lz4Block block target.length with
  | some bytes => return (overwrite grown start bytes).take (start + bytes.length)
  | none =>
    if target.length < lz4LegacyBlock then fail (.fileTooLarge (start + target.length + 1) maxOut)
    else fail (.decompress "lz4 legacy block failed")

/-- One turn of the loop of `lz4_legacy`. The stream ends where the next size cannot be a
block. -/
def lz4Turn (input : List UInt8) (maxOut : ℕ) : Loop Fault Blocks (List UInt8 × ℕ) := fun s =>
  match slice input s.pos 4 with
  | none => .ok (.inl (s.out, s.pos))
  | some head =>
    if head = lz4LegacyMagic then .ok (.inr { s with pos := s.pos + 4 })
    else if leNat head = 0 ∨ leNat head > lz4LegacyMaxCompressed then .ok (.inl (s.out, s.pos))
    else do
      let left ← minus input.length s.pos
      let left ← minus left 4
      if leNat head > left then return .inl (s.out, s.pos)
      else do
        let block ← unwrap (slice input (s.pos + 4) (leNat head))
        let grown ← growBlock d s.out maxOut
        let out ← decodeBlock d block s.out grown maxOut
        return .inr ⟨s.pos + (4 + leNat head), out⟩

variable {d}

theorem getFrom_eq_some {input rest : List UInt8} {pos : ℕ} :
    getFrom input pos = some rest ↔ pos ≤ input.length ∧ input.drop pos = rest := by
  unfold getFrom
  by_cases h : pos ≤ input.length <;> simp [h]

theorem pushCapped_eq_ok {out chunk out' : List UInt8} {maxOut : ℕ}
    (h : pushCapped d out chunk maxOut = .ok out') :
    out' = out ++ chunk ∧ out.length + chunk.length ≤ maxOut := by
  unfold pushCapped at h
  dsimp only at h
  split at h
  · exact absurd h (fail_ne_ok _ _)
  · rename_i hfits
    split at h
    · exact ⟨(Except.ok.inj h).symm, Nat.le_of_not_lt hfits⟩
    · exact absurd h (fail_ne_ok _ _)

theorem readTurn_next {maxOut : Outcome ℕ} {what : String} {s t : Reading ρ}
    (h : readTurn d maxOut what s = .ok (.inr t)) :
    ∃ r max, d.read s.reader s.rest chunkLen = some r ∧ r.count ≠ 0 ∧ t.reader = r.reader ∧
      t.rest = r.rest ∧ maxOut = .ok max ∧ t.out.length = s.out.length + r.count ∧
      t.out.length ≤ max := by
  unfold readTurn at h
  cases hread : d.read s.reader s.rest chunkLen with
  | none =>
    rw [hread] at h
    exact absurd h (fail_ne_ok _ _)
  | some r =>
    rw [hread] at h
    dsimp only at h
    split at h
    · cases h
    · rename_i hcount
      obtain ⟨chunk, hchunk, h⟩ := bind_eq_ok.mp h
      obtain ⟨max, hmax, h⟩ := bind_eq_ok.mp h
      obtain ⟨out, hout, h⟩ := bind_eq_ok.mp h
      obtain rfl := Sum.inr.inj (Except.ok.inj h)
      obtain ⟨rfl, hle⟩ := pushCapped_eq_ok hout
      have hlen := slice_length (unwrap_eq_ok.mp hchunk)
      rw [hlen] at hle
      refine ⟨r, max, rfl, hcount, rfl, rfl, hmax, ?_, ?_⟩
      · rw [List.length_append, hlen]
      · rwa [List.length_append, hlen]

theorem readTurn_leave {maxOut : Outcome ℕ} {what : String} {s : Reading ρ}
    {b : List UInt8 × List UInt8} (h : readTurn d maxOut what s = .ok (.inl b)) :
    ∃ r, d.read s.reader s.rest chunkLen = some r ∧ r.count = 0 ∧ b = (s.out, r.rest) := by
  unfold readTurn at h
  cases hread : d.read s.reader s.rest chunkLen with
  | none =>
    rw [hread] at h
    exact absurd h (fail_ne_ok _ _)
  | some r =>
    rw [hread] at h
    dsimp only at h
    split at h
    · rename_i hcount
      exact ⟨r, rfl, hcount, (Sum.inl.inj (Except.ok.inj h)).symm⟩
    · obtain ⟨chunk, -, h⟩ := bind_eq_ok.mp h
      obtain ⟨max, -, h⟩ := bind_eq_ok.mp h
      obtain ⟨out, -, h⟩ := bind_eq_ok.mp h
      cases h

/-- A turn of the inflate loop, whether it is the last one or not. -/
theorem inflateTurn_eq_ok {input : List UInt8} {maxOut : ℕ} {s : Inflating δ}
    {b : (List UInt8 × ℕ) ⊕ Inflating δ} (h : inflateTurn d input maxOut s = .ok b) :
    ∃ r : InflateResult δ, s.pos ≤ input.length ∧ s.pos + r.consumed ≤ input.length ∧
      ∃ out : List UInt8, out.length = s.out.length + r.written ∧ out.length ≤ maxOut ∧
        (b = .inl (out, s.pos + r.consumed) ∨
          (b = .inr ⟨r.state, s.pos + r.consumed, out⟩ ∧ (r.consumed > 0 ∨ r.written > 0))) := by
  obtain ⟨rest, hrest, h⟩ := bind_eq_ok.mp h
  obtain ⟨hpos, rfl⟩ := getFrom_eq_some.mp (unwrap_eq_ok.mp hrest)
  have hconsumed := d.consumed_le s.state (input.drop s.pos) chunkLen
  rw [List.length_drop] at hconsumed
  obtain ⟨chunk, hchunk, h⟩ := bind_eq_ok.mp h
  obtain ⟨out, hout, h⟩ := bind_eq_ok.mp h
  obtain ⟨rfl, hle⟩ := pushCapped_eq_ok hout
  have hlen := slice_length (unwrap_eq_ok.mp hchunk)
  rw [hlen] at hle
  have hout : (s.out ++ chunk).length = s.out.length + chunk.length := List.length_append
  rw [hlen] at hout
  refine ⟨_, hpos, by omega, s.out ++ chunk, hout, by omega, ?_⟩
  split at h
  · exact .inl (Except.ok.inj h).symm
  · split at h
    · rename_i hprogress
      exact .inr ⟨(Except.ok.inj h).symm, hprogress⟩
    · exact absurd h (fail_ne_ok _ _)
  · exact absurd h (fail_ne_ok _ _)

theorem growBlock_eq_ok {out grown : List UInt8} {maxOut : ℕ}
    (h : growBlock d out maxOut = .ok grown) :
    ∃ room, grown = out ++ List.replicate room 0 ∧ grown.length ≤ maxOut := by
  obtain ⟨left, hleft, h⟩ := bind_eq_ok.mp h
  obtain ⟨hle, rfl⟩ := minus_eq_ok.mp hleft
  dsimp only at h
  split at h
  · obtain rfl := Except.ok.inj h
    refine ⟨_, rfl, ?_⟩
    rw [List.length_append, List.length_replicate]
    omega
  · exact absurd h (fail_ne_ok _ _)

theorem decodeBlock_eq_ok {block out grown out' : List UInt8} {maxOut : ℕ}
    (h : decodeBlock d block out grown maxOut = .ok out') : out'.length ≤ grown.length := by
  obtain ⟨target, htarget, h⟩ := bind_eq_ok.mp h
  obtain ⟨hstart, rfl⟩ := getFrom_eq_some.mp (unwrap_eq_ok.mp htarget)
  split at h
  · rename_i bytes hbytes
    obtain rfl := Except.ok.inj h
    have hle := d.lz4Block_le hbytes
    rw [List.length_drop] at hle
    rw [List.length_take]
    omega
  · split at h
    · exact absurd h (fail_ne_ok _ _)
    · exact absurd h (fail_ne_ok _ _)

theorem lz4Turn_next {input : List UInt8} {maxOut : ℕ} {s t : Blocks}
    (h : lz4Turn d input maxOut s = .ok (.inr t)) :
    s.pos + 4 ≤ t.pos ∧ t.pos ≤ input.length ∧ (t.out = s.out ∨ t.out.length ≤ maxOut) := by
  unfold lz4Turn at h
  split at h
  · cases h
  · rename_i head hhead
    have hin := (slice_eq_some.mp hhead).1
    split at h
    · obtain rfl := Sum.inr.inj (Except.ok.inj h)
      exact ⟨le_refl _, hin, .inl rfl⟩
    · split at h
      · cases h
      · obtain ⟨left, -, h⟩ := bind_eq_ok.mp h
        obtain ⟨left, -, h⟩ := bind_eq_ok.mp h
        split at h
        · cases h
        · obtain ⟨block, hblock, h⟩ := bind_eq_ok.mp h
          obtain ⟨grown, hgrown, h⟩ := bind_eq_ok.mp h
          obtain ⟨out, hout, h⟩ := bind_eq_ok.mp h
          obtain rfl := Sum.inr.inj (Except.ok.inj h)
          have hstop := (slice_eq_some.mp (unwrap_eq_ok.mp hblock)).1
          obtain ⟨room, -, hcap⟩ := growBlock_eq_ok hgrown
          have hle := decodeBlock_eq_ok hout
          exact ⟨by dsimp only; omega, by dsimp only; omega, .inr (hle.trans hcap)⟩

theorem lz4Turn_leave {input : List UInt8} {maxOut : ℕ} {s : Blocks} {b : List UInt8 × ℕ}
    (h : lz4Turn d input maxOut s = .ok (.inl b)) : b = (s.out, s.pos) := by
  unfold lz4Turn at h
  split at h
  · exact (Sum.inl.inj (Except.ok.inj h)).symm
  · split at h
    · cases h
    · split at h
      · exact (Sum.inl.inj (Except.ok.inj h)).symm
      · obtain ⟨left, -, h⟩ := bind_eq_ok.mp h
        obtain ⟨left, -, h⟩ := bind_eq_ok.mp h
        split at h
        · exact (Sum.inl.inj (Except.ok.inj h)).symm
        · obtain ⟨block, -, h⟩ := bind_eq_ok.mp h
          obtain ⟨grown, -, h⟩ := bind_eq_ok.mp h
          obtain ⟨out, -, h⟩ := bind_eq_ok.mp h
          cases h

/-- The room left under the cap of a read. -/
def readLeft (maxOut : Outcome ℕ) (s : Reading ρ) : ℕ :=
  match maxOut with
  | .ok max => max - s.out.length
  | .error _ => 0

theorem readTurn_lowers (d : Decoders δ ρ) (maxOut : Outcome ℕ) (what : String) :
    Lowers (readLeft maxOut) (readTurn d maxOut what) := by
  intro s t h
  obtain ⟨r, max, -, hcount, -, -, rfl, hout, hle⟩ := readTurn_next h
  change max - t.out.length < max - s.out.length
  omega

/-- The input and the room that are left. -/
def inflateLeft (input : List UInt8) (maxOut : ℕ) (s : Inflating δ) : ℕ :=
  (input.length - s.pos) + (maxOut - s.out.length)

theorem inflateTurn_lowers (d : Decoders δ ρ) (input : List UInt8) (maxOut : ℕ) :
    Lowers (inflateLeft input maxOut) (inflateTurn d input maxOut) := by
  intro s t h
  obtain ⟨r, hpos, hconsumed, out, hout, hle, hlast | ⟨hnext, hprogress⟩⟩ := inflateTurn_eq_ok h
  · cases hlast
  · obtain rfl := Sum.inr.inj hnext
    unfold inflateLeft
    dsimp only
    omega

theorem lz4Turn_lowers (d : Decoders δ ρ) (input : List UInt8) (maxOut : ℕ) :
    Lowers (fun s => input.length - s.pos) (lz4Turn d input maxOut) := by
  intro s t h
  obtain ⟨hnext, hin, -⟩ := lz4Turn_next h
  dsimp only
  omega

end Decode

section Streams

variable {δ ρ : Type} (d : Decoders δ ρ)

/-- Read a reader to its end into a capped buffer; also the input it leaves. -/
def readAllCapped (maxOut : Outcome ℕ) (what : String) (reader : ρ) (rest : List UInt8) :
    Outcome (List UInt8 × List UInt8) :=
  run (readTurn d maxOut what) (readLeft maxOut) (readTurn_lowers d maxOut what) ⟨reader, rest, []⟩

/-- Inflate one raw DEFLATE stream; also the input it used. -/
def inflateRawStream (input : List UInt8) (maxOut : ℕ) : Outcome (List UInt8 × ℕ) :=
  run (inflateTurn d input maxOut) (inflateLeft input maxOut) (inflateTurn_lowers d input maxOut)
    ⟨d.inflateInit, 0, []⟩

/-- A gzip member. -/
def gzip (input : List UInt8) (maxOut : ℕ) : Outcome (List UInt8 × ℕ) :=
  if input.length < 10 then fail (.corrupt "gzip_header")
  else do
    let id ← unwrap (slice input 0 3)
    let flg ← unwrap input[3]?
    if id ≠ [0x1F, 0x8B, 8] ∨ flg &&& 0xE0 ≠ 0 then fail (.corrupt "gzip_header")
    else do
      let pos ← skipExtra input flg 10
      let pos ← skipString input flg fname pos
      let pos ← skipString input flg fcomment pos
      let pos := if flg &&& fhcrc ≠ 0 then pos + 2 else pos
      let body ← okOr (getFrom input pos) (.corrupt "gzip_header")
      let (out, used) ← inflateRawStream d body maxOut
      let pos := pos + used
      let trailer ← okOr (slice input pos 8) (.corrupt "gzip_truncated")
      let crc := leNat (trailer.take 4)
      let isize := leNat (trailer.drop 4)
      if crc ≠ (crc32 out).toNat ∨ isize ≠ out.length % 2 ^ 32 then fail (.corrupt "gzip_checksum")
      else return (out, pos + 8)

/-- One turn of the loop of `zstd`: a skippable frame, or a frame. -/
def zstdTurn (maxOut : ℕ) : Loop Fault Frames Frames := fun s => do
  match ← skippableSize s.rest with
  | some size =>
    let rest ← okOr (getFrom s.rest (8 + size)) (.corrupt "zstd_truncated")
    return .inr { s with rest := rest }
  | none =>
    if !zstdFrameMagic.isPrefixOf s.rest then return .inl s
    else
      let (reader, rest) ← okOr (d.zstdReader s.rest) (.decompress "zstd frame init failed")
      let (frame, rest) ← readAllCapped d (minus maxOut s.out.length) "zstd read failed" reader rest
      let out ← pushCapped d s.out frame maxOut
      return .inr ⟨rest, out, s.frames + 1⟩

variable {d}

/-- What was read came from draining the reader, within the cap. -/
theorem readAllCapped_eq_ok {maxOut : Outcome ℕ} {what : String} {reader : ρ}
    {rest out last : List UInt8} (h : readAllCapped d maxOut what reader rest = .ok (out, last)) :
    Drains d.read chunkLen reader rest last ∧
      (out = [] ∨ ∃ max, maxOut = .ok max ∧ out.length ≤ max) := by
  have hkeep : ∀ {s t : Reading ρ},
      ((∀ last, Drains d.read chunkLen s.reader s.rest last → Drains d.read chunkLen reader rest last) ∧
        (s.out = [] ∨ ∃ max, maxOut = .ok max ∧ s.out.length ≤ max)) →
      readTurn d maxOut what s = .ok (.inr t) →
      (∀ last, Drains d.read chunkLen t.reader t.rest last → Drains d.read chunkLen reader rest last) ∧
        (t.out = [] ∨ ∃ max, maxOut = .ok max ∧ t.out.length ≤ max) := by
    intro s t hs ht
    obtain ⟨r, max, hread, hcount, hreader, hrest, hmax, -, hle⟩ := readTurn_next ht
    refine ⟨?_, .inr ⟨max, hmax, hle⟩⟩
    intro last htail
    rw [hreader, hrest] at htail
    exact hs.1 last (.more hread hcount htail)
  obtain ⟨s, ⟨hdrain, hcap⟩, hleave⟩ := run_eq_ok
    ⟨fun _ hdrain => hdrain, Or.inl rfl⟩ hkeep h
  obtain ⟨r, hread, hcount, hb⟩ := readTurn_leave hleave
  obtain ⟨rfl, rfl⟩ := Prod.mk.inj hb
  exact ⟨hdrain _ (.done hread hcount), hcap⟩

theorem skippableSize_eq_some {rest : List UInt8} {size : ℕ}
    (h : skippableSize rest = .ok (some size)) : 8 ≤ rest.length := by
  unfold skippableSize at h
  split at h
  · assumption
  · cases h

theorem zstdTurn_next {maxOut : ℕ} {s t : Frames} (h : zstdTurn d maxOut s = .ok (.inr t)) :
    t.rest.length < s.rest.length ∧ ((t.out = s.out ∧ t.frames = s.frames) ∨
      (t.out.length ≤ maxOut ∧ t.frames = s.frames + 1)) := by
  obtain ⟨size, hsize, h⟩ := bind_eq_ok.mp h
  cases size with
  | some size =>
    have hlen := skippableSize_eq_some hsize
    obtain ⟨rest, hrest, h⟩ := bind_eq_ok.mp h
    obtain rfl := Sum.inr.inj (Except.ok.inj h)
    obtain ⟨-, rfl⟩ := getFrom_eq_some.mp (okOr_eq_ok.mp hrest)
    refine ⟨?_, .inl ⟨rfl, rfl⟩⟩
    rw [List.length_drop]
    omega
  | none =>
    dsimp only at h
    split at h
    · cases h
    · obtain ⟨⟨reader, rest⟩, hreader, h⟩ := bind_eq_ok.mp h
      obtain ⟨⟨frame, last⟩, hframe, h⟩ := bind_eq_ok.mp h
      obtain ⟨out, hout, h⟩ := bind_eq_ok.mp h
      obtain rfl := Sum.inr.inj (Except.ok.inj h)
      obtain ⟨hdrain, -⟩ := readAllCapped_eq_ok hframe
      have hmagic := d.zstd_magic (okOr_eq_ok.mp hreader) hdrain
      obtain ⟨rfl, hle⟩ := pushCapped_eq_ok hout
      refine ⟨by dsimp only; omega, .inr ⟨?_, rfl⟩⟩
      rwa [List.length_append]

theorem zstdTurn_leave {maxOut : ℕ} {s b : Frames} (h : zstdTurn d maxOut s = .ok (.inl b)) :
    b = s := by
  obtain ⟨size, -, h⟩ := bind_eq_ok.mp h
  cases size with
  | some size =>
    obtain ⟨rest, -, h⟩ := bind_eq_ok.mp h
    cases h
  | none =>
    dsimp only at h
    split at h
    · exact (Sum.inl.inj (Except.ok.inj h)).symm
    · obtain ⟨⟨reader, rest⟩, -, h⟩ := bind_eq_ok.mp h
      obtain ⟨⟨frame, last⟩, -, h⟩ := bind_eq_ok.mp h
      obtain ⟨out, -, h⟩ := bind_eq_ok.mp h
      cases h

theorem zstdTurn_lowers (d : Decoders δ ρ) (maxOut : ℕ) :
    Lowers (fun s => s.rest.length) (zstdTurn d maxOut) := fun _ _ h => (zstdTurn_next h).1

variable (d)

/-- Zstandard frames, with skippable frames between them. -/
def zstd (input : List UInt8) (maxOut : ℕ) : Outcome (List UInt8 × ℕ) := do
  let s ← run (zstdTurn d maxOut) _ (zstdTurn_lowers d maxOut) ⟨input, [], 0⟩
  if s.frames = 0 then fail (.corrupt "zstd_no_frame")
  else do
    let used ← minus input.length s.rest.length
    return (s.out, used)

/-- One `.xz` stream. -/
def xz (input : List UInt8) (maxOut : ℕ) : Outcome (List UInt8 × ℕ) := do
  let (reader, rest) := d.xzReader input
  let (out, rest) ← readAllCapped d (.ok maxOut) "xz read failed" reader rest
  let used ← minus input.length rest.length
  return (out, used)

/-- The legacy `.lzma` format. -/
def lzma (input : List UInt8) (maxOut : ℕ) : Outcome (List UInt8 × ℕ) := do
  let (reader, rest) ← okOr (d.lzmaReader input) (.corrupt "lzma_header")
  let (out, rest) ← readAllCapped d (.ok maxOut) "lzma read failed" reader rest
  let used ← minus input.length rest.length
  return (out, used)

/-- The legacy LZ4 frame format: the magic, then blocks without an end marker. -/
def lz4Legacy (input : List UInt8) (maxOut : ℕ) : Outcome (List UInt8 × ℕ) :=
  if !lz4LegacyMagic.isPrefixOf input then fail (.corrupt "lz4_legacy_magic")
  else run (lz4Turn d input maxOut) _ (lz4Turn_lowers d input maxOut) ⟨4, []⟩

/-- Decode the stream at the start of `input`; also the number of bytes it occupied. -/
def decodeStream (features : Features) (codec : StreamCodec) (input : List UInt8) (maxOut : ℕ) :
    Outcome (List UInt8 × ℕ) :=
  match codec with
  | .gzip =>
    if features.deflate then gzip d input maxOut
    else fail (.unsupported "codec-deflate feature disabled")
  | .zstd =>
    if features.zstd then zstd d input maxOut
    else fail (.unsupported "codec-zstd feature disabled")
  | .xz =>
    if features.xz then xz d input maxOut else fail (.unsupported "codec-xz feature disabled")
  | .lzma =>
    if features.xz then lzma d input maxOut else fail (.unsupported "codec-xz feature disabled")
  | .lz4Legacy =>
    if features.lz4 then lz4Legacy d input maxOut
    else fail (.unsupported "codec-lz4 feature disabled")
  | .bzip2 => fail (.unsupported "stream_bzip2")
  | .lzo => fail (.unsupported "stream_lzo")

end Streams

end Lamfold.Streams
