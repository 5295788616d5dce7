import Mathlib.Data.Nat.Notation
import Mathlib.Tactic.Common
import Mathlib.Tactic.Ring

/-!
UTF-8 decoding of byte lists: the strict check, and the lossy decoding that puts
U+FFFD in place of every maximal ill-formed sequence.
-/
namespace Lamfold.Utf8

def isContinuation (b : UInt8) : Bool := b &&& 0xC0 == 0x80

/-- Whether `b` may follow the lead byte `a` of a three-byte sequence. -/
def secondOfThree (a b : UInt8) : Bool :=
  if a = 0xE0 then 0xA0 ≤ b && b ≤ 0xBF
  else if a = 0xED then 0x80 ≤ b && b ≤ 0x9F
  else 0x80 ≤ b && b ≤ 0xBF

/-- Whether `b` may follow the lead byte `a` of a four-byte sequence. -/
def secondOfFour (a b : UInt8) : Bool :=
  if a = 0xF0 then 0x90 ≤ b && b ≤ 0xBF
  else if a = 0xF4 then 0x80 ≤ b && b ≤ 0x8F
  else 0x80 ≤ b && b ≤ 0xBF

/-- Whether the bytes start with a well-formed character, and how many bytes
that character or the ill-formed sequence in its place takes. -/
def scanChar : List UInt8 → Bool × ℕ
  | [] => (false, 0)
  | a :: rest =>
    -- a missing byte reads as 0, which continues nothing
    let b := rest.getD 0 0
    let c := rest.getD 1 0
    let d := rest.getD 2 0
    if a < 0x80 then (true, 1)
    else if 0xC2 ≤ a ∧ a ≤ 0xDF then
      if isContinuation b then (true, 2) else (false, 1)
    else if 0xE0 ≤ a ∧ a ≤ 0xEF then
      if secondOfThree a b then
        if isContinuation c then (true, 3) else (false, 2)
      else (false, 1)
    else if 0xF0 ≤ a ∧ a ≤ 0xF4 then
      if secondOfFour a b then
        if isContinuation c then
          if isContinuation d then (true, 4) else (false, 3)
        else (false, 2)
      else (false, 1)
    else (false, 1)

def isUtf8From : ℕ → List UInt8 → Bool
  | 0, bytes => bytes.isEmpty
  | n + 1, bytes =>
    bytes.isEmpty || ((scanChar bytes).1 && isUtf8From n (bytes.drop (scanChar bytes).2))

/-- `str::from_utf8` succeeds. Every character takes at least one byte, so the
byte count bounds the characters. -/
def isUtf8 (bytes : List UInt8) : Bool := isUtf8From bytes.length bytes

def fromUtf8 (bytes : List UInt8) : Option (List UInt8) :=
  if isUtf8 bytes then some bytes else none

def replacement : List UInt8 := [0xEF, 0xBF, 0xBD]

def lossyFrom : ℕ → List UInt8 → List UInt8
  | 0, _ => []
  | n + 1, bytes =>
    if bytes.isEmpty then []
    else
      let (wellFormed, width) := scanChar bytes
      (if wellFormed then bytes.take width else replacement) ++
        lossyFrom n (bytes.drop width)

/-- `String::from_utf8_lossy`. -/
def fromUtf8Lossy (bytes : List UInt8) : List UInt8 := lossyFrom bytes.length bytes

/-- The UTF-8 bytes of a character. -/
def ofScalar (c : ℕ) : List UInt8 :=
  let low (k : ℕ) : UInt8 := .ofNat (0x80 + c / 64 ^ k % 64)
  if c < 0x80 then [.ofNat c]
  else if c < 0x800 then [.ofNat (0xC0 + c / 64), low 0]
  else if c < 0x10000 then [.ofNat (0xE0 + c / 64 ^ 2), low 1, low 0]
  else [.ofNat (0xF0 + c / 64 ^ 3), low 2, low 1, low 0]

/-- `char::decode_utf16`: the characters of UTF-16 units, unless a surrogate has
no partner. -/
def decodeUtf16 : List ℕ → Option (List ℕ)
  | [] => some []
  | u :: units =>
    if 0xD800 ≤ u ∧ u < 0xDC00 then
      match units with
      | [] => none
      | v :: units =>
        if 0xDC00 ≤ v ∧ v < 0xE000 then
          (decodeUtf16 units).map ((0x10000 + (u - 0xD800) * 0x400 + (v - 0xDC00)) :: ·)
        else none
    else if 0xDC00 ≤ u ∧ u < 0xE000 then none
    else (decodeUtf16 units).map (u :: ·)

/-- A character that is no surrogate. -/
def IsScalar (c : ℕ) : Prop := c < 0xD800 ∨ 0xE000 ≤ c ∧ c < 0x110000

/-- `char::encode_utf16`: one unit, or a surrogate pair. -/
def unitsOf (c : ℕ) : List ℕ :=
  if c < 0x10000 then [c]
  else [0xD800 + (c - 0x10000) / 0x400, 0xDC00 + (c - 0x10000) % 0x400]

theorem unitsOf_lt {c u : ℕ} (hc : IsScalar c) (hu : u ∈ unitsOf c) : u < 2 ^ 16 := by
  unfold unitsOf at hu
  unfold IsScalar at hc
  split at hu
  · obtain rfl := List.mem_singleton.mp hu
    omega
  · simp only [List.mem_cons, List.not_mem_nil, or_false] at hu
    omega

/-- The units of characters decode to them. -/
theorem decodeUtf16_unitsOf {chars : List ℕ} (h : ∀ c ∈ chars, IsScalar c) :
    decodeUtf16 (chars.flatMap unitsOf) = some chars := by
  induction chars with
  | nil => rfl
  | cons c chars ih =>
    have hrest := ih fun c' hc' => h c' (List.mem_cons_of_mem _ hc')
    have hc := h c List.mem_cons_self
    unfold IsScalar at hc
    rw [List.flatMap_cons]
    by_cases hone : c < 0x10000
    · have hunits : unitsOf c = [c] := if_pos hone
      rw [hunits, List.singleton_append, decodeUtf16.eq_def]
      dsimp only
      rw [if_neg (by omega), if_neg (by omega), hrest, Option.map_some]
    · have hunits : unitsOf c = [0xD800 + (c - 0x10000) / 0x400, 0xDC00 + (c - 0x10000) % 0x400] :=
        if_neg hone
      have hsplit := Nat.div_add_mod (c - 0x10000) 0x400
      have hmod := Nat.mod_lt (c - 0x10000) (by omega : 0 < 0x400)
      rw [hunits, List.cons_append, List.singleton_append, decodeUtf16.eq_def]
      dsimp only
      have hchar : 0x10000 + (0xD800 + (c - 0x10000) / 0x400 - 0xD800) * 0x400 +
          (0xDC00 + (c - 0x10000) % 0x400 - 0xDC00) = c := by omega
      rw [if_pos (by omega), if_pos (by omega), hrest, Option.map_some, hchar]

theorem fromUtf8_eq_some {bytes s : List UInt8} :
    fromUtf8 bytes = some s ↔ isUtf8 bytes = true ∧ bytes = s := by
  unfold fromUtf8
  by_cases h : isUtf8 bytes = true
  · rw [if_pos h, Option.some.injEq]
    exact ⟨fun hs => ⟨h, hs⟩, fun hs => hs.2⟩
  · rw [if_neg h]
    exact ⟨fun hs => (nomatch hs), fun hs => absurd hs.1 h⟩

theorem lossyFrom_of_utf8 {n : ℕ} {bytes : List UInt8} (h : isUtf8From n bytes = true) :
    lossyFrom n bytes = bytes := by
  induction n generalizing bytes with
  | zero => exact (List.isEmpty_iff.mp h).symm
  | succ n ih =>
    rw [lossyFrom]
    by_cases hempty : bytes.isEmpty
    · rw [if_pos hempty, List.isEmpty_iff.mp hempty]
    · simp only [isUtf8From, hempty, Bool.false_or, Bool.and_eq_true] at h
      rw [if_neg hempty]
      simp only [h.1, if_true, ih h.2, List.take_append_drop]

/-- Lossy decoding leaves valid UTF-8 alone. -/
theorem fromUtf8Lossy_of_utf8 {bytes : List UInt8} (h : isUtf8 bytes = true) :
    fromUtf8Lossy bytes = bytes := lossyFrom_of_utf8 h

example : isUtf8 [0xE2, 0x82, 0xAC] = true := by decide

example : (decodeUtf16 [0x41, 0xD83D, 0xDE00]).map (·.flatMap ofScalar) =
    some [0x41, 0xF0, 0x9F, 0x98, 0x80] := by decide

example : fromUtf8Lossy [0x61, 0xE2, 0x82, 0x62] = [0x61, 0xEF, 0xBF, 0xBD, 0x62] := by decide

end Lamfold.Utf8
