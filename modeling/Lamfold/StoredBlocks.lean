import Lamfold.Bytes

/-!
Raw deflate streams of stored blocks. The header of a block is the low three bits of a
byte, whose other bits are not looked at; a length and its complement follow.
-/
namespace Lamfold.StoredBlocks

open Bytes

/-- The data of the first block, whether it is the last one, and what follows it. -/
def storedBlock : List UInt8 → Option (Bool × List UInt8 × List UInt8)
  | [] => none
  | header :: rest => do
    let len ← slice rest 0 2
    let nlen ← slice rest 2 2
    let data ← slice rest 4 (leNat len)
    if header.toNat / 2 % 4 = 0 ∧ leNat len + leNat nlen = 0xFFFF then
      some (header.toNat % 2 = 1, data, rest.drop (4 + leNat len))
    else none

theorem storedBlock_lt {input data rest : List UInt8} {final : Bool}
    (h : storedBlock input = some (final, data, rest)) : rest.length < input.length := by
  cases input with
  | nil => cases h
  | cons header input =>
    obtain ⟨len, -, h⟩ := Option.bind_eq_some_iff.mp h
    obtain ⟨nlen, -, h⟩ := Option.bind_eq_some_iff.mp h
    obtain ⟨body, -, h⟩ := Option.bind_eq_some_iff.mp h
    split at h
    · cases h
      rw [List.length_drop, List.length_cons]
      omega
    · cases h

/-- The bytes of the blocks up to the last one. What follows that is left alone. -/
def inflate (input : List UInt8) : Option (List UInt8) :=
  match _h : storedBlock input with
  | none => none
  | some (final, data, rest) => if final then some data else (inflate rest).map (data ++ ·)
  termination_by input.length
  decreasing_by exact storedBlock_lt _h

/-- The same, refused when there are more than `limit` bytes. -/
def inflateWithLimit (input : List UInt8) (limit : ℕ) : Option (List UInt8) :=
  (inflate input).filter fun out => out.length ≤ limit

theorem inflateWithLimit_le {input out : List UInt8} {limit : ℕ}
    (h : inflateWithLimit input limit = some out) : out.length ≤ limit := by
  have hlimit := (Option.filter_eq_some_iff.mp h).2
  exact of_decide_eq_true hlimit

end Lamfold.StoredBlocks
