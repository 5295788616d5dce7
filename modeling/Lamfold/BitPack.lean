import Lamfold.Bytes

/-!
Numbers of a fixed width packed into one number, the first in its lowest bits,
and the bits of a little-endian byte list.
-/
namespace Lamfold.BitPack

open Bytes

/-- Pack numbers of `w` bits, the first lowest. -/
def pack (w : ℕ) : List ℕ → ℕ
  | [] => 0
  | v :: vs => 2 ^ w * pack w vs + v

theorem pack_lt {w : ℕ} {vs : List ℕ} (h : ∀ v ∈ vs, v < 2 ^ w) :
    pack w vs < 2 ^ (w * vs.length) := by
  induction vs with
  | nil => simp [pack]
  | cons v vs ih =>
    have hv : v < 2 ^ w := h v List.mem_cons_self
    have hvs := ih fun u hu => h u (List.mem_cons_of_mem v hu)
    rw [pack, List.length_cons, Nat.mul_succ, Nat.pow_add, Nat.mul_comm (2 ^ (w * vs.length))]
    calc 2 ^ w * pack w vs + v < 2 ^ w * pack w vs + 2 ^ w := by omega
      _ = 2 ^ w * (pack w vs + 1) := by ring
      _ ≤ 2 ^ w * 2 ^ (w * vs.length) := Nat.mul_le_mul_left _ hvs

/-- Field `s` of a packed number is its number `s`. -/
theorem pack_field {w s : ℕ} {vs : List ℕ} (h : ∀ v ∈ vs, v < 2 ^ w) (hs : s < vs.length) :
    pack w vs / 2 ^ (s * w) % 2 ^ w = vs[s] := by
  induction vs generalizing s with
  | nil => exact absurd hs (Nat.not_lt_zero s)
  | cons v vs ih =>
    have hv : v < 2 ^ w := h v List.mem_cons_self
    cases s with
    | zero =>
      simp only [pack, Nat.zero_mul, Nat.pow_zero, Nat.div_one, List.getElem_cons_zero]
      rw [Nat.mul_add_mod, Nat.mod_eq_of_lt hv]
    | succ s =>
      have hdiv : (2 ^ w * pack w vs + v) / 2 ^ w = pack w vs := by
        rw [Nat.mul_add_div (Nat.two_pow_pos w), Nat.div_eq_of_lt hv, Nat.add_zero]
      rw [pack, Nat.succ_mul, Nat.add_comm (s * w), Nat.pow_add, ← Nat.div_div_eq_div_mul, hdiv,
        List.getElem_cons_succ]
      exact ih (fun u hu => h u (List.mem_cons_of_mem v hu)) (Nat.lt_of_succ_lt_succ hs)

/-- What lies above a field does not change it. -/
theorem field_of_low {high low k i w : ℕ} (h : i + w ≤ k) :
    (low + 2 ^ k * high) / 2 ^ i % 2 ^ w = low / 2 ^ i % 2 ^ w := by
  obtain ⟨j, rfl⟩ : ∃ j, k = i + (w + j) := ⟨k - i - w, by omega⟩
  rw [Nat.pow_add, Nat.mul_assoc, Nat.add_mul_div_left _ _ (Nat.two_pow_pos i), Nat.pow_add,
    Nat.mul_assoc, Nat.add_mul_mod_self_left]

theorem leNat_append (xs ys : List UInt8) :
    leNat (xs ++ ys) = leNat xs + 256 ^ xs.length * leNat ys := by
  induction xs with
  | nil => simp [leNat]
  | cons x xs ih =>
    rw [List.cons_append, leNat, ih, leNat, List.length_cons, Nat.pow_succ]
    ring

/-- Bit `i` of a byte list is bit `i % 8` of its byte `i / 8`. -/
theorem leNat_testBit (bytes : List UInt8) (i : ℕ) :
    (leNat bytes).testBit i = (bytes.getD (i / 8) 0).toNat.testBit (i % 8) := by
  induction bytes generalizing i with
  | nil => simp [leNat]
  | cons b bytes ih =>
    have hb : b.toNat < 2 ^ 8 := b.toNat_lt
    have hcons : leNat (b :: bytes) = 2 ^ 8 * leNat bytes + b.toNat := by
      rw [leNat, Nat.add_comm]
      rfl
    rw [hcons, Nat.testBit_two_pow_mul_add _ hb]
    by_cases hi : i < 8
    · rw [if_pos hi, Nat.div_eq_of_lt hi, Nat.mod_eq_of_lt hi, List.getD_cons_zero]
    · obtain ⟨j, rfl⟩ : ∃ j, i = j + 8 := ⟨i - 8, by omega⟩
      rw [if_neg hi, Nat.add_sub_cancel, ih, Nat.add_div_right j (by norm_num), Nat.add_mod_right,
        List.getD_cons_succ]

theorem leNat_bit {bytes : List UInt8} {i : ℕ} (hi : i / 8 < bytes.length) :
    bytes[i / 8].toNat / 2 ^ (i % 8) % 2 = leNat bytes / 2 ^ i % 2 := by
  have h := leNat_testBit bytes i
  rw [List.getD_eq_getElem?_getD, List.getElem?_eq_getElem hi, Option.getD_some,
    Nat.testBit_eq_decide_div_mod_eq,
    Nat.testBit_eq_decide_div_mod_eq, decide_eq_decide] at h
  omega

end Lamfold.BitPack
