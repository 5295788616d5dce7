import Mathlib.Data.Nat.Notation
import Mathlib.Tactic.Common

/-!
Cyclic redundancy checks, reflected: the remainder of the data, bit by bit. A shift is
linear in exclusive or, so the eight shifts of a byte can be looked up by the low octet
of the remainder.
-/
namespace Lamfold.Crc

variable {w : ℕ}

/-- The remainder after one more bit. -/
def shift (poly c : BitVec w) : BitVec w := if c.getLsbD 0 then poly ^^^ (c >>> 1) else c >>> 1

/-- The remainder after `n` more bits. -/
def shifts (poly : BitVec w) : ℕ → BitVec w → BitVec w
  | 0, c => c
  | n + 1, c => shifts poly n (shift poly c)

/-- The remainder after one more byte. -/
def addByte (poly c : BitVec w) (b : UInt8) : BitVec w :=
  shifts poly 8 (c ^^^ b.toBitVec.setWidth w)

/-- The checksum of the data: the remainder from all ones on, inverted. -/
def checksum (poly : BitVec w) (data : List UInt8) : BitVec w :=
  ~~~data.foldl (addByte poly) (BitVec.allOnes w)

/-- The bits of a byte, the least significant first. -/
def messageBits (b : UInt8) : List Bool := (List.range 8).map b.toBitVec.getLsbD

/-- The remainder after one more bit of the message: one shift, with the polynomial when
what is shifted out differs from the bit. -/
def addBit (poly c : BitVec w) (m : Bool) : BitVec w :=
  if c.getLsbD 0 ^^ m then poly ^^^ (c >>> 1) else c >>> 1

/-- The checksum of the data, one bit of the message after another. -/
def bitwise (poly : BitVec w) (data : List UInt8) : BitVec w :=
  ~~~(data.flatMap messageBits).foldl (addBit poly) (BitVec.allOnes w)

theorem xor_cancel (p a b : BitVec w) : p ^^^ a ^^^ (p ^^^ b) = a ^^^ b := by
  rw [BitVec.xor_comm p a, BitVec.xor_assoc, ← BitVec.xor_assoc p p b, BitVec.xor_self,
    BitVec.zero_xor]

theorem shift_xor (poly a b : BitVec w) :
    shift poly (a ^^^ b) = shift poly a ^^^ shift poly b := by
  unfold shift
  rw [BitVec.getLsbD_xor, BitVec.ushiftRight_xor_distrib]
  cases a.getLsbD 0 with
  | false =>
    cases b.getLsbD 0 with
    | false => simp
    | true =>
      simp only [Bool.false_xor, if_true, Bool.false_eq_true, if_false]
      rw [← BitVec.xor_assoc, ← BitVec.xor_assoc, BitVec.xor_comm poly]
  | true =>
    cases b.getLsbD 0 with
    | false => simp [BitVec.xor_assoc]
    | true => simp [xor_cancel]

theorem shifts_xor (poly : BitVec w) (n : ℕ) (a b : BitVec w) :
    shifts poly n (a ^^^ b) = shifts poly n a ^^^ shifts poly n b := by
  induction n generalizing a b with
  | zero => rfl
  | succ n ih => rw [shifts, shifts, shifts, shift_xor, ih]

theorem shifts_of_low {poly c : BitVec w} {n : ℕ} (h : ∀ i < n, c.getLsbD i = false) :
    shifts poly n c = c >>> n := by
  induction n generalizing c with
  | zero => rw [shifts, BitVec.ushiftRight_zero]
  | succ n ih =>
    have hfirst : shift poly c = c >>> 1 := by
      rw [shift, h 0 (Nat.succ_pos n)]
      rfl
    have hrest : ∀ i < n, (c >>> 1).getLsbD i = false := by
      intro i hi
      rw [BitVec.getLsbD_ushiftRight]
      exact h (1 + i) (by omega)
    rw [shifts, hfirst, ih hrest, ← BitVec.shiftRight_add, Nat.add_comm]

/-- The shifts of the low bits, and the others moved down. -/
theorem shifts_split (poly c : BitVec w) (n : ℕ) :
    shifts poly n c = shifts poly n ((c.setWidth n).setWidth w) ^^^ (c >>> n) := by
  have hsplit : c = (c.setWidth n).setWidth w ^^^ ((c >>> n) <<< n) := by
    refine BitVec.eq_of_getLsbD_eq fun i hi => ?_
    simp only [BitVec.getLsbD_xor, BitVec.getLsbD_setWidth, BitVec.getLsbD_shiftLeft,
      BitVec.getLsbD_ushiftRight, hi, decide_true, Bool.true_and]
    by_cases hlow : i < n
    · simp [hlow]
    · simp [hlow, Nat.add_sub_cancel' (Nat.le_of_not_lt hlow)]
  have hhigh : shifts poly n ((c >>> n) <<< n) = c >>> n := by
    rw [shifts_of_low]
    · refine BitVec.eq_of_getLsbD_eq fun i hi => ?_
      simp only [BitVec.getLsbD_ushiftRight, BitVec.getLsbD_shiftLeft]
      by_cases hin : n + i < w
      · simp [hin]
      · simp [hin, BitVec.getLsbD_of_ge c (n + i) (Nat.le_of_not_lt hin)]
    · intro i hi
      simp [BitVec.getLsbD_shiftLeft, hi]
  conv => lhs; rw [hsplit]
  rw [shifts_xor, hhigh]

/-- A shift takes the lowest bit of what is added as a bit of the message, and moves the
others down. -/
theorem shift_eq_addBit (poly c x : BitVec w) :
    shift poly (c ^^^ x) = addBit poly c (x.getLsbD 0) ^^^ (x >>> 1) := by
  unfold shift addBit
  rw [BitVec.getLsbD_xor, BitVec.ushiftRight_xor_distrib]
  by_cases h : (c.getLsbD 0 ^^ x.getLsbD 0) = true
  · rw [if_pos h, if_pos h, BitVec.xor_assoc]
  · rw [if_neg h, if_neg h]

/-- The bits of the message one by one, or all of them added before the shifts. -/
theorem foldl_addBit {poly c x : BitVec w} {n : ℕ} (h : ∀ i, n ≤ i → x.getLsbD i = false) :
    ((List.range n).map x.getLsbD).foldl (addBit poly) c = shifts poly n (c ^^^ x) := by
  induction n generalizing c x with
  | zero =>
    have hzero : x = 0#w := BitVec.eq_of_getLsbD_eq fun i _ => by
      rw [h i (Nat.zero_le i), BitVec.getLsbD_zero]
    rw [hzero, BitVec.xor_zero]
    rfl
  | succ n ih =>
    have hrest : ∀ i, n ≤ i → (x >>> 1).getLsbD i = false := by
      intro i hi
      rw [BitVec.getLsbD_ushiftRight]
      exact h (1 + i) (by omega)
    have hbits : (List.range n).map (x.getLsbD ∘ Nat.succ) = (List.range n).map (x >>> 1).getLsbD := by
      refine List.map_congr_left fun i _ => ?_
      rw [BitVec.getLsbD_ushiftRight, Nat.add_comm]
      rfl
    rw [List.range_succ_eq_map, List.map_cons, List.foldl_cons, List.map_map, hbits, ih hrest, shifts,
      shift_eq_addBit]

/-- A byte is eight bits of the message. -/
theorem foldl_messageBits (hw : 8 ≤ w) (poly c : BitVec w) (b : UInt8) :
    (messageBits b).foldl (addBit poly) c = addByte poly c b := by
  have hhigh : ∀ i, 8 ≤ i → (b.toBitVec.setWidth w).getLsbD i = false := by
    intro i hi
    rw [BitVec.getLsbD_setWidth, BitVec.getLsbD_of_ge _ _ hi, Bool.and_false]
  have hbits : messageBits b = (List.range 8).map (b.toBitVec.setWidth w).getLsbD := by
    refine List.map_congr_left fun i hi => ?_
    have hlt : i < w := Nat.lt_of_lt_of_le (List.mem_range.mp hi) hw
    rw [BitVec.getLsbD_setWidth, decide_eq_true hlt, Bool.true_and]
  rw [hbits, foldl_addBit hhigh]
  rfl

theorem checksum_eq_bitwise (hw : 8 ≤ w) (poly : BitVec w) (data : List UInt8) :
    checksum poly data = bitwise poly data := by
  have hfold : ∀ c, data.foldl (addByte poly) c =
      (data.flatMap messageBits).foldl (addBit poly) c := by
    induction data with
    | nil => exact fun _ => rfl
    | cons b data ih =>
      intro c
      rw [List.foldl_cons, List.flatMap_cons, List.foldl_append, foldl_messageBits hw, ih]
  unfold checksum bitwise
  rw [hfold]

end Lamfold.Crc
