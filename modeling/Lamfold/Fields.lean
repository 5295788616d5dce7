import Lamfold.Bytes

/-!
Records of fixed-width numbers. The fields stand one after another, each with the least
significant byte first, and a field is found behind the widths of those before it.
-/
namespace Lamfold.Bytes

/-- The numbers, each in its width in bytes. -/
def encodeFields : List (ℕ × ℕ) → List UInt8
  | [] => []
  | (width, n) :: fields => leBytes width n ++ encodeFields fields

def fieldsWidth : List (ℕ × ℕ) → ℕ
  | [] => 0
  | (width, _) :: fields => width + fieldsWidth fields

variable {fields : List (ℕ × ℕ)} {k width n : ℕ}

@[simp] theorem encodeFields_length (fields : List (ℕ × ℕ)) :
    (encodeFields fields).length = fieldsWidth fields := by
  induction fields with
  | nil => rfl
  | cons field fields ih => rw [encodeFields, fieldsWidth, List.length_append, leBytes_length, ih]

/-- Field `k` is behind those before it. -/
theorem slice_encodeFields (hk : fields[k]? = some (width, n)) (post : List UInt8) :
    slice (encodeFields fields ++ post) (fieldsWidth (fields.take k)) width =
      some (leBytes width n) := by
  induction fields generalizing k with
  | nil => cases hk
  | cons field fields ih =>
    obtain ⟨first, m⟩ := field
    cases k with
    | zero =>
      obtain ⟨rfl, rfl⟩ := Prod.mk.inj (Option.some.inj hk)
      rw [encodeFields, List.append_assoc, List.take_zero]
      have hsplit : leBytes first m ++ (encodeFields fields ++ post) =
          [] ++ leBytes first m ++ (encodeFields fields ++ post) := rfl
      exact slice_of_append hsplit rfl (leBytes_length ..).symm
    | succ k =>
      have hrest := ih hk
      rw [encodeFields, List.take_succ_cons, fieldsWidth, List.append_assoc]
      nth_rewrite 2 [← leBytes_length first m]
      rw [slice_append_right]
      exact hrest

theorem encodeFields_append (fields more : List (ℕ × ℕ)) :
    encodeFields (fields ++ more) = encodeFields fields ++ encodeFields more := by
  induction fields with
  | nil => rfl
  | cons field fields ih => rw [List.cons_append, encodeFields, encodeFields, ih, List.append_assoc]

theorem fieldsWidth_append (fields more : List (ℕ × ℕ)) :
    fieldsWidth (fields ++ more) = fieldsWidth fields + fieldsWidth more := by
  induction fields with
  | nil => exact (Nat.zero_add _).symm
  | cons field fields ih => rw [List.cons_append, fieldsWidth, fieldsWidth, ih, Nat.add_assoc]

/-- Numbers of one width. -/
def words (width : ℕ) (ns : List ℕ) : List (ℕ × ℕ) := ns.map fun n => (width, n)

theorem fieldsWidth_words (width : ℕ) (ns : List ℕ) :
    fieldsWidth (words width ns) = ns.length * width := by
  unfold words
  induction ns with
  | nil => exact (Nat.zero_mul _).symm
  | cons n ns ih => rw [List.map_cons, fieldsWidth, ih, List.length_cons, Nat.succ_mul, Nat.add_comm]

end Lamfold.Bytes
