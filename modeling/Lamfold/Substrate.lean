import Lamfold.Effects
import Lamfold.Bytes

/-!
The shared substrate of the format frontends: errors, read caps, the byte
source, the verifier seam, and the operations every frontend offers.
A 64-bit build with overflow checks is modelled: lengths are `usize`, and an
addition that leaves its type is a panic, as an index out of range is. Sums of
positions inside a buffer already in memory cannot leave `usize` and stay plain.
-/
namespace Lamfold

open Effects Bytes

/-- Every fallible operation returns this; a variant carries a stable token. -/
inductive FoldError
  | notFound
  | notDirectory
  | isDirectory
  | invalidPath (what : String)
  | corrupt (what : String)
  | unsupported (what : String)
  | fileTooLarge (size max : ℕ)
  | decompress (what : String)
  | verifyFailed (what : String)
  | io (what : String)
  deriving DecidableEq, Repr

/-- Why a call returned no value: an error it reports, a panic, or a loop that
never ends. -/
inductive Fault
  | err (e : FoldError)
  | panic
  | hang
  deriving DecidableEq, Repr

abbrev Outcome := Except Fault

def fail {α : Type} (e : FoldError) : Outcome α := .error (.err e)

/-- `Option::ok_or`. -/
def okOr {α : Type} (x : Option α) (e : FoldError) : Outcome α :=
  match x with
  | some a => .ok a
  | none => fail e

/-- An indexing or slicing expression, which panics when out of range. -/
def unwrap {α : Type} : Option α → Outcome α
  | some a => .ok a
  | none => .error .panic

/-- The value of a `bits`-wide sum or product. -/
def fits (bits n : ℕ) : Outcome ℕ := if n < 2 ^ bits then .ok n else .error .panic

abbrev u32 (n : ℕ) : Outcome ℕ := fits 32 n

abbrev u64 (n : ℕ) : Outcome ℕ := fits 64 n

/-- An unsigned subtraction. -/
def minus (a b : ℕ) : Outcome ℕ := if b ≤ a then .ok (a - b) else .error .panic

/-- A sum or product that is `none` when it leaves 64 bits. -/
def checkedU64 (n : ℕ) : Option ℕ := if n < 2 ^ 64 then some n else none

/-- `usize::div_ceil`. -/
def divCeil (a b : ℕ) : ℕ := (a + b - 1) / b

/-- The `n`-byte little-endian number at index `o`. -/
def leAt (n : ℕ) (what : String) (bytes : List UInt8) (o : ℕ) : Outcome ℕ := do
  let field ← okOr (slice bytes o n) (.corrupt what)
  return leNat field

section Rules

variable {α : Type}

@[simp] theorem fail_ne_ok (e : FoldError) (a : α) : fail e ≠ Except.ok a := by
  intro h
  cases h

@[simp] theorem okOr_eq_ok {x : Option α} {e : FoldError} {a : α} :
    okOr x e = .ok a ↔ x = some a := by
  cases x <;> simp [okOr]

@[simp] theorem okOr_ne_panic {x : Option α} {e : FoldError} :
    okOr x e ≠ .error .panic := by
  cases x <;> simp [okOr, fail]

@[simp] theorem unwrap_eq_ok {x : Option α} {a : α} : unwrap x = .ok a ↔ x = some a := by
  cases x <;> simp [unwrap]

@[simp] theorem fits_eq_ok {bits n m : ℕ} : fits bits n = .ok m ↔ n < 2 ^ bits ∧ n = m := by
  unfold fits
  by_cases h : n < 2 ^ bits <;> simp [h]

@[simp] theorem minus_eq_ok {a b n : ℕ} : minus a b = .ok n ↔ b ≤ a ∧ a - b = n := by
  unfold minus
  by_cases h : b ≤ a <;> simp [h]

theorem leAt_of_le {n o : ℕ} (what : String) {bytes : List UInt8} (h : o + n ≤ bytes.length) :
    ∃ v, leAt n what bytes o = .ok v := by
  have hslice : slice bytes o n = some ((bytes.drop o).take n) := slice_eq_some.mpr ⟨h, rfl⟩
  exact ⟨_, bind_eq_ok.mpr ⟨_, okOr_eq_ok.mpr hslice, rfl⟩⟩

/-- A number is read back where it was written. -/
theorem leAt_of_append {n o v : ℕ} {what : String} {bytes pre post : List UInt8}
    (hbytes : bytes = pre ++ leBytes n v ++ post) (ho : o = pre.length) (hv : v < 256 ^ n) :
    leAt n what bytes o = .ok v := by
  have hslice : slice bytes o n = some (leBytes n v) :=
    slice_of_append hbytes ho (leBytes_length n v).symm
  refine bind_eq_ok.mpr ⟨leBytes n v, okOr_eq_ok.mpr hslice, ?_⟩
  exact congrArg Except.ok (leNat_leBytes hv)

theorem leAt_lt {n o v : ℕ} {what : String} {bytes : List UInt8}
    (h : leAt n what bytes o = .ok v) : v < 256 ^ n := by
  obtain ⟨field, hfield, h⟩ := bind_eq_ok.mp h
  obtain rfl := Except.ok.inj h
  have hlen := slice_length (okOr_eq_ok.mp hfield)
  exact hlen ▸ leNat_lt field

theorem lt_divCeil_iff {a b i : ℕ} (hb : 0 < b) : i < divCeil a b ↔ i * b < a := by
  unfold divCeil
  rw [Nat.lt_div_iff_mul_lt hb]
  constructor
  · intro h
    have : b * i = i * b := Nat.mul_comm b i
    omega
  · intro h
    have : b * i = i * b := Nat.mul_comm b i
    omega

theorem divCeil_pos {a b : ℕ} (hb : 0 < b) (ha : 0 < a) : 0 < divCeil a b :=
  (lt_divCeil_iff hb).mpr (by omega)

end Rules

/-- The bytes of a slice in memory, of which there are at most `isize::MAX`. -/
abbrev Slice := { bytes : List UInt8 // bytes.length < 2 ^ 63 }

/-- `Vec::with_capacity` for `n` elements of `width` bytes, which panics when the bytes
are more than `isize::MAX`. -/
def withCapacity (width n : ℕ) : Outcome Unit :=
  if n * width < 2 ^ 63 then .ok () else .error .panic

/-- Largest single file allocated for a full read: 512 MiB. -/
def maxBootFileBytes : ℕ := 512 * 1024 * 1024

/-- Largest single decompressed block: 16 MiB. -/
def maxDecompressedBlockBytes : ℕ := 16 * 1024 * 1024

def checkedLen (size max : ℕ) : Outcome ℕ :=
  if size > max then fail (.fileTooLarge size max) else .ok size

def checkedFullReadLen (size : ℕ) : Outcome ℕ := checkedLen size maxBootFileBytes

def checkedBlockLen (size : ℕ) : Outcome ℕ := checkedLen size maxDecompressedBlockBytes

@[simp] theorem checkedLen_eq_ok {size max n : ℕ} :
    checkedLen size max = .ok n ↔ size ≤ max ∧ size = n := by
  unfold checkedLen
  by_cases h : size > max
  · simp [h]
  · simp [h, Nat.le_of_not_lt h]

theorem checkedLen_of_lt {size max : ℕ} (h : max < size) :
    checkedLen size max = fail (.fileTooLarge size max) := if_pos h

@[simp] theorem checkedFullReadLen_eq_ok {size n : ℕ} :
    checkedFullReadLen size = .ok n ↔ size ≤ maxBootFileBytes ∧ size = n := checkedLen_eq_ok

@[simp] theorem checkedBlockLen_eq_ok {size n : ℕ} :
    checkedBlockLen size = .ok n ↔ size ≤ maxDecompressedBlockBytes ∧ size = n :=
  checkedLen_eq_ok

/-- A read-only medium whose length is a `u64`. -/
structure Source where
  content : List UInt8
  length_lt : content.length < 2 ^ 64
  deriving DecidableEq

namespace Source

def len (src : Source) : ℕ := src.content.length

/-- Fill a buffer of `n` bytes from byte `offset` on, or fail. -/
def fill (src : Source) (offset n : ℕ) : Outcome (List UInt8) :=
  if 2 ^ 64 ≤ offset + n then fail (.io "offset+len overflow")
  else okOr (slice src.content offset n) (.io "read past end of source")

end Source

/-- A monad in which sources are read, and a failure can be looked at. -/
class Reads (m : Type → Type) where
  read : Source → ℕ → ℕ → m (List UInt8)
  attempt {α : Type} : m α → m (Except Fault α)

/-- A read fills a buffer and does nothing else. -/
@[default_instance] instance : Reads Outcome := ⟨Source.fill, .ok⟩

theorem attempt_bind {α β : Type} (x : Outcome α) (f : Except Fault α → Outcome β) :
    (Reads.attempt x >>= f) = f x := rfl

namespace Source

/-- `BlockSource::read_at`. -/
def readAt {m : Type → Type} [Reads m] (src : Source) (offset n : ℕ) : m (List UInt8) :=
  Reads.read src offset n

theorem readAt_eq_ok {src : Source} {offset n : ℕ} {bs : List UInt8} :
    src.readAt offset n = .ok bs ↔ slice src.content offset n = some bs := by
  show src.fill offset n = .ok bs ↔ _
  unfold fill
  by_cases h : 2 ^ 64 ≤ offset + n
  · rw [if_pos h]
    constructor
    · intro hbad
      exact absurd hbad (fail_ne_ok _ _)
    · intro hs
      have hle := (slice_eq_some.mp hs).1
      have hlt := src.length_lt
      omega
  · rw [if_neg h, okOr_eq_ok]

/-- A successful read fills the whole buffer. -/
theorem readAt_length {src : Source} {offset n : ℕ} {bs : List UInt8}
    (h : src.readAt offset n = .ok bs) : bs.length = n := slice_length (readAt_eq_ok.mp h)

theorem readAt_le {src : Source} {offset n : ℕ} {bs : List UInt8}
    (h : src.readAt offset n = .ok bs) : offset + n ≤ src.len :=
  (slice_eq_some.mp (readAt_eq_ok.mp h)).1

/-- The first bytes of a read can be read alone. -/
theorem readAt_take {src : Source} {offset n k : ℕ} {bs : List UInt8}
    (h : src.readAt offset n = .ok bs) (hk : k ≤ n) : src.readAt offset k = .ok (bs.take k) := by
  obtain ⟨hle, rfl⟩ := slice_eq_some.mp (readAt_eq_ok.mp h)
  refine readAt_eq_ok.mpr (slice_eq_some.mpr ⟨by omega, ?_⟩)
  rw [List.take_take, Nat.min_eq_left hk]

end Source

abbrev NodeId := ℕ

/-- A string, as its UTF-8 bytes. -/
abbrev Str := List UInt8

inductive FileKind
  | regular
  | directory
  | symlink
  | other
  deriving DecidableEq, Repr

/-- The kind that the type bits of a Unix mode stand for. -/
def modeKind (mode : ℕ) : FileKind :=
  if mode &&& 0xF000 = 0x8000 then .regular
  else if mode &&& 0xF000 = 0x4000 then .directory
  else if mode &&& 0xF000 = 0xA000 then .symlink
  else .other

structure Metadata where
  kind : FileKind
  size : ℕ
  mode : ℕ
  deriving DecidableEq, Repr

structure DirEntry where
  name : Str
  node : NodeId
  kind : FileKind
  deriving DecidableEq, Repr

/-- The node of the first entry with this name. -/
def entryNamed (entries : List DirEntry) (name : Str) : Option NodeId :=
  (entries.find? fun e => e.name = name).map DirEntry.node

/-- A frontend method: it may change the mounted volume's state, and does so
even when it fails afterwards. -/
abbrev MethodIn (n : Type → Type) (σ α : Type) := OpIn n Fault σ α

abbrev Method (σ α : Type) := MethodIn Id σ α

/-- `Verifier::verify_block`, as a function of node, offset and data. -/
abbrev Verifier := NodeId → ℕ → List UInt8 → Outcome Unit

/-- The no-op verifier accepts everything. -/
def noVerifier : Verifier := fun _ _ _ => .ok ()

/-- What every read-only media frontend offers on a mounted volume of type `σ`.
`readAt` takes the caller's buffer and returns the count and the buffer after
the call. -/
structure FoldFrontendIn (n : Type → Type) (σ : Type) where
  root : σ → NodeId
  lookup : NodeId → Str → MethodIn n σ (Option NodeId)
  readDir : NodeId → MethodIn n σ (List DirEntry)
  metadata : NodeId → MethodIn n σ Metadata
  readAt : NodeId → ℕ → List UInt8 → MethodIn n σ (ℕ × List UInt8)
  readLink : NodeId → MethodIn n σ (Option (List UInt8))

abbrev FoldFrontend (σ : Type) := FoldFrontendIn Id σ

end Lamfold
