import Mathlib.Data.Nat.Notation
import Mathlib.Tactic.Common
import Mathlib.Tactic.Ring

/-!
Slices of lists and fixed-width numbers in byte lists. A slice exists only when
it is in range, so a successful access always has the length asked for.
-/
namespace Lamfold.Bytes

variable {α : Type}

/-- The `n` items from index `off` on, when there are that many. -/
def slice (xs : List α) (off n : ℕ) : Option (List α) :=
  if off + n ≤ xs.length then some ((xs.drop off).take n) else none

/-- The items at indexes `a..b`, when that is a range of the list. -/
def sliceRange (xs : List α) (a b : ℕ) : Option (List α) :=
  if a ≤ b then slice xs a (b - a) else none

theorem slice_eq_some {xs ys : List α} {off n : ℕ} :
    slice xs off n = some ys ↔ off + n ≤ xs.length ∧ (xs.drop off).take n = ys := by
  unfold slice
  by_cases h : off + n ≤ xs.length <;> simp [h]

theorem slice_eq_none {xs : List α} {off n : ℕ} :
    slice xs off n = none ↔ xs.length < off + n := by
  unfold slice
  by_cases h : off + n ≤ xs.length
  · simp [h]
  · simp only [if_neg h, true_iff]
    omega

theorem slice_length {xs ys : List α} {off n : ℕ} (h : slice xs off n = some ys) :
    ys.length = n := by
  obtain ⟨hle, rfl⟩ := slice_eq_some.mp h
  simp only [List.length_take, List.length_drop]
  omega

/-- A displayed middle part is the slice at its own position. -/
theorem slice_append (pre ys post : List α) :
    slice (pre ++ ys ++ post) pre.length ys.length = some ys := by
  refine slice_eq_some.mpr ⟨by simp only [List.length_append]; omega, ?_⟩
  rw [List.append_assoc, List.drop_left, List.take_left]

theorem slice_of_append {xs pre ys post : List α} {off n : ℕ}
    (hxs : xs = pre ++ ys ++ post) (hoff : off = pre.length) (hn : n = ys.length) :
    slice xs off n = some ys := by
  subst hxs hoff hn
  exact slice_append pre ys post

/-- The two parts of a slice are slices. -/
theorem slice_parts {xs as bs : List α} {off n : ℕ} (h : slice xs off n = some (as ++ bs)) :
    slice xs off as.length = some as ∧ slice xs (off + as.length) bs.length = some bs := by
  have hn := slice_length h
  rw [List.length_append] at hn
  obtain ⟨hle, htake⟩ := slice_eq_some.mp h
  constructor
  · refine slice_eq_some.mpr ⟨by omega, ?_⟩
    have hfirst := congrArg (List.take as.length) htake
    rwa [List.take_take, Nat.min_eq_left (by omega), List.take_left] at hfirst
  · refine slice_eq_some.mpr ⟨by omega, ?_⟩
    have hsecond := congrArg (List.drop as.length) htake
    rwa [List.drop_take, List.drop_left, List.drop_drop, ← hn, Nat.add_sub_cancel_left] at hsecond

theorem sliceRange_of_append {xs pre ys post : List α} {a b : ℕ}
    (hxs : xs = pre ++ ys ++ post) (ha : a = pre.length) (hb : b = a + ys.length) :
    sliceRange xs a b = some ys := by
  unfold sliceRange
  rw [if_pos (by omega)]
  exact slice_of_append hxs ha (by omega)

theorem getElem?_of_append {xs pre post : List α} {a : α} {off : ℕ} (hxs : xs = pre ++ a :: post)
    (hoff : off = pre.length) : xs[off]? = some a := by
  subst hxs hoff
  rw [List.getElem?_append_right (Nat.le_refl _), Nat.sub_self]
  rfl

/-- A slice stays one when more items follow. -/
theorem slice_append_left {xs ys : List α} {off n : ℕ} (h : slice xs off n = some ys)
    (more : List α) : slice (xs ++ more) off n = some ys := by
  obtain ⟨hin, rfl⟩ := slice_eq_some.mp h
  refine slice_eq_some.mpr ⟨?_, ?_⟩
  · rw [List.length_append]
    omega
  · rw [List.drop_append_of_le_length (by omega), List.take_append_of_le_length]
    rw [List.length_drop]
    omega

theorem slice_append_right (pre xs : List α) (off n : ℕ) :
    slice (pre ++ xs) (pre.length + off) n = slice xs off n := by
  unfold slice
  rw [List.length_append, ← List.drop_drop, List.drop_left, Nat.add_assoc]
  simp only [Nat.add_le_add_iff_left]

theorem length_flatten_of_eq {xss : List (List α)} {n : ℕ} (h : ∀ xs ∈ xss, xs.length = n) :
    xss.flatten.length = xss.length * n := by
  induction xss with
  | nil => simp
  | cons xs xss ih =>
    have hfirst := h xs List.mem_cons_self
    have hrest := ih fun ys hys => h ys (List.mem_cons_of_mem _ hys)
    rw [List.flatten_cons, List.length_append, hfirst, hrest, List.length_cons, Nat.succ_mul,
      Nat.add_comm]

/-- Of pieces of `n` items each, piece `k` is the slice from `k * n` on. -/
theorem slice_flatten {xss : List (List α)} {n k : ℕ} {xs : List α}
    (h : ∀ xs ∈ xss, xs.length = n) (hk : xss[k]? = some xs) :
    slice xss.flatten (k * n) n = some xs := by
  induction xss generalizing k with
  | nil => cases hk
  | cons ys xss ih =>
    have hfirst := h ys List.mem_cons_self
    rw [List.flatten_cons]
    cases k with
    | zero =>
      obtain rfl : ys = xs := Option.some.inj hk
      have hslice := slice_append [] ys xss.flatten
      rwa [hfirst, List.length_nil, List.nil_append, ← Nat.zero_mul n] at hslice
    | succ k =>
      have hrest := ih (fun zs hzs => h zs (List.mem_cons_of_mem _ hzs)) hk
      rw [← slice_append_right ys, hfirst, Nat.add_comm, ← Nat.succ_mul] at hrest
      exact hrest

/-- The item `i` of a slice is the item `off + i` of the list. -/
theorem slice_getElem? {xs ys : List α} {off n i : ℕ} (h : slice xs off n = some ys)
    (hi : i < n) : ys[i]? = xs[off + i]? := by
  obtain ⟨-, rfl⟩ := slice_eq_some.mp h
  rw [List.getElem?_take_of_lt hi, List.getElem?_drop]

/-- Item `i` of two pieces, the second of which starts at `n`. -/
theorem append_getElem? {seg rest : List α} {f : ℕ → Option α} {n i : ℕ} (hlen : seg.length = n)
    (hseg : i < n → seg[i]? = f i) (hrest : ∀ j, n + j = i → rest[j]? = f i) :
    (seg ++ rest)[i]? = f i := by
  by_cases hi : i < n
  · rw [List.getElem?_append_left (by omega)]
    exact hseg hi
  · rw [List.getElem?_append_right (by omega)]
    exact hrest _ (by omega)

/-- Positions in the piece of `n` items that `p` lies in. -/
theorem same_piece {n p i : ℕ} (hi : p + i < (p / n + 1) * n) :
    (p + i) / n = p / n ∧ (p + i) % n = p % n + i := by
  have hsplit := Nat.div_add_mod p n
  have hdiv : (p + i) / n = p / n := by
    refine Nat.div_eq_of_lt_le ?_ hi
    rw [Nat.mul_comm]
    omega
  refine ⟨hdiv, ?_⟩
  have hsplit' := Nat.div_add_mod (p + i) n
  rw [hdiv] at hsplit'
  omega

theorem sliceRange_eq_some {xs ys : List α} {a b : ℕ} :
    sliceRange xs a b = some ys ↔ a ≤ b ∧ b ≤ xs.length ∧ (xs.drop a).take (b - a) = ys := by
  unfold sliceRange
  by_cases h : a ≤ b
  · rw [if_pos h, slice_eq_some]
    constructor
    · rintro ⟨hle, hys⟩
      exact ⟨h, by omega, hys⟩
    · rintro ⟨-, hle, hys⟩
      exact ⟨by omega, hys⟩
  · simp [h]

/-- The consecutive pieces of `n` items; items left over are dropped. -/
def chunksExact (n : ℕ) (xs : List α) : List (List α) :=
  if 0 < n ∧ n ≤ xs.length then xs.take n :: chunksExact n (xs.drop n) else []
  termination_by xs.length
  decreasing_by
    rw [List.length_drop]
    omega

theorem chunksExact_count (n : ℕ) (xs : List α) :
    (chunksExact n xs).length * n ≤ xs.length := by
  fun_induction chunksExact n xs with
  | case1 xs hn ih =>
    rw [List.length_drop] at ih
    rw [List.length_cons, Nat.succ_mul]
    omega
  | case2 xs hn => simp

/-- Pieces of one length are what the list is cut into again. -/
theorem chunksExact_flatten {n : ℕ} (hn : 0 < n) {xss : List (List α)}
    (h : ∀ xs ∈ xss, xs.length = n) : chunksExact n xss.flatten = xss := by
  induction xss with
  | nil =>
    rw [List.flatten_nil, chunksExact, if_neg]
    rw [List.length_nil]
    omega
  | cons xs xss ih =>
    have hfirst := h xs List.mem_cons_self
    have hrest := ih fun ys hys => h ys (List.mem_cons_of_mem _ hys)
    rw [List.flatten_cons, chunksExact, if_pos, ← hfirst, List.take_left, List.drop_left, hfirst,
      hrest]
    rw [List.length_append]
    omega

/-- Write `ys` over the items of `xs` from index `off` on. -/
def overwrite (xs : List α) (off : ℕ) (ys : List α) : List α :=
  xs.take off ++ ys ++ xs.drop (off + ys.length)

theorem overwrite_length {xs ys : List α} {off : ℕ} (h : off + ys.length ≤ xs.length) :
    (overwrite xs off ys).length = xs.length := by
  simp only [overwrite, List.length_append, List.length_take, List.length_drop]
  omega

@[simp] theorem overwrite_nil (xs : List α) (off : ℕ) : overwrite xs off [] = xs := by
  simp [overwrite]

theorem overwrite_getElem?_of_mem {xs ys : List α} {off i : ℕ}
    (h : off + ys.length ≤ xs.length) (hi : i < ys.length) :
    (overwrite xs off ys)[off + i]? = ys[i]? := by
  have htake : (xs.take off).length = off := by simp only [List.length_take]; omega
  unfold overwrite
  rw [List.append_assoc, List.getElem?_append_right (by omega), htake,
    Nat.add_sub_cancel_left, List.getElem?_append_left hi]

theorem overwrite_getElem?_of_notMem {xs ys : List α} {off i : ℕ}
    (h : off + ys.length ≤ xs.length) (hi : i < off ∨ off + ys.length ≤ i) :
    (overwrite xs off ys)[i]? = xs[i]? := by
  have htake : (xs.take off).length = off := by simp only [List.length_take]; omega
  unfold overwrite
  rcases hi with hi | hi
  · rw [List.append_assoc, List.getElem?_append_left (by omega), List.getElem?_take_of_lt hi]
  · rw [List.getElem?_append_right (by simp only [List.length_append]; omega),
      List.getElem?_drop]
    congr 1
    simp only [List.length_append]
    omega

/-- What is written right after what was written before. -/
theorem overwrite_append {xs ys : List α} {off : ℕ} (h : off + ys.length ≤ xs.length)
    (zs : List α) :
    overwrite (overwrite xs off ys) (off + ys.length) zs = overwrite xs off (ys ++ zs) := by
  have hwritten : (xs.take off ++ ys).length = off + ys.length := by
    simp only [List.length_append, List.length_take]
    omega
  unfold overwrite
  rw [← hwritten, List.take_left, List.append_assoc, ← List.drop_drop, List.drop_left,
    List.drop_drop, hwritten, List.length_append, ← Nat.add_assoc]
  simp only [List.append_assoc]

/-- The number a little-endian byte list stands for. -/
def leNat : List UInt8 → ℕ
  | [] => 0
  | b :: bs => b.toNat + 256 * leNat bs

/-- The low `k` bytes of a number, least significant first. -/
def leBytes : ℕ → ℕ → List UInt8
  | 0, _ => []
  | k + 1, n => UInt8.ofNat n :: leBytes k (n / 256)

/-- The number a big-endian byte list stands for. -/
def beNat (bs : List UInt8) : ℕ := leNat bs.reverse

@[simp] theorem leBytes_length (k n : ℕ) : (leBytes k n).length = k := by
  induction k generalizing n with
  | zero => rfl
  | succ k ih => simp [leBytes, ih]

theorem leNat_lt (bs : List UInt8) : leNat bs < 256 ^ bs.length := by
  induction bs with
  | nil => simp [leNat]
  | cons b bs ih =>
    have hb : b.toNat < 256 := b.toNat_lt
    simp only [leNat, List.length_cons, Nat.pow_succ]
    omega

/-- Encoding a number that fits and decoding it again gives it back. -/
theorem leNat_leBytes {k n : ℕ} (h : n < 256 ^ k) : leNat (leBytes k n) = n := by
  induction k generalizing n with
  | zero =>
    simp only [Nat.pow_zero] at h
    simp only [leBytes, leNat]
    omega
  | succ k ih =>
    have hdiv : n / 256 < 256 ^ k := by
      rw [Nat.div_lt_iff_lt_mul (by norm_num)]
      simpa [Nat.pow_succ] using h
    simp only [leBytes, leNat, ih hdiv, UInt8.toNat_ofNat']
    omega

/-- Decoding bytes and encoding the number again gives them back. -/
theorem leBytes_leNat (bs : List UInt8) : leBytes bs.length (leNat bs) = bs := by
  induction bs with
  | nil => rfl
  | cons b bs ih =>
    have hb := b.toNat_lt
    have hlow : UInt8.ofNat (b.toNat + 256 * leNat bs) = b := by
      apply UInt8.toNat_inj.mp
      rw [UInt8.toNat_ofNat']
      omega
    have hhigh : (b.toNat + 256 * leNat bs) / 256 = leNat bs := by omega
    rw [leNat, List.length_cons, leBytes, hlow, hhigh, ih]

theorem leBytes_of_length {k : ℕ} {bytes : List UInt8} (h : bytes.length = k) :
    leBytes k (leNat bytes) = bytes := by
  subst h
  exact leBytes_leNat bytes

/-- The low `k` bytes of a number, most significant first. -/
def beBytes (k n : ℕ) : List UInt8 := (leBytes k n).reverse

@[simp] theorem beBytes_length (k n : ℕ) : (beBytes k n).length = k := by simp [beBytes]

theorem beNat_beBytes {k n : ℕ} (h : n < 256 ^ k) : beNat (beBytes k n) = n := by
  unfold beNat beBytes
  rw [List.reverse_reverse, leNat_leBytes h]

theorem leBytes_inj {k m n : ℕ} (hm : m < 256 ^ k) (hn : n < 256 ^ k)
    (h : leBytes k m = leBytes k n) : m = n := by
  rw [← leNat_leBytes hm, h, leNat_leBytes hn]

end Lamfold.Bytes
