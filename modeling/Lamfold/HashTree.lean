import Mathlib.Data.Nat.Notation
import Mathlib.Tactic.Common

/-!
Hashing by levels. A level is cut into blocks, the blocks are hashed, and the
digests are joined into the next level, until a level is a single block. The
root binds the first level: two levels of one size with the same root are equal
or show two hashed blocks with the same digest. No property of the hash is used.
-/
namespace Lamfold.HashTree

variable {L X D : Type}

structure Scheme (L X D : Type) where
  blocks : L → List X
  join : List D → L

namespace Scheme

variable (S : Scheme L X D) (hash : X → D)

/-- The level above `l`. -/
def next (l : L) : L := S.join ((S.blocks l).map hash)

/-- The root of `l`, when it is reached within the given number of rounds. -/
def root : ℕ → L → Option D
  | 0, _ => none
  | rounds + 1, l =>
    match S.blocks l with
    | [x] => some (hash x)
    | _ => root rounds (S.next hash l)

/-- Every block hashed on the way to the root. -/
def hashed : ℕ → L → List X
  | 0, _ => []
  | rounds + 1, l =>
    match S.blocks l with
    | [x] => [x]
    | xs => xs ++ hashed rounds (S.next hash l)

/-- The size of a level fixes the shape of everything above it, and nothing is
lost by cutting a level or by joining digests. -/
structure Faithful (size : L → ℕ) : Prop where
  blocks_length : ∀ l l', size l = size l' → (S.blocks l).length = (S.blocks l').length
  blocks_inj : ∀ l l', size l = size l' → S.blocks l = S.blocks l' → l = l'
  join_inj : ∀ ds ds', S.join ds = S.join ds' → ds = ds'
  size_join : ∀ ds ds', ds.length = ds'.length → size (S.join ds) = size (S.join ds')

end Scheme

/-- Two different strings, one from each list, with the same digest. -/
def Collision (hash : X → D) (xs ys : List X) : Prop :=
  ∃ x ∈ xs, ∃ y ∈ ys, x ≠ y ∧ hash x = hash y

theorem Collision.mono {hash : X → D} {xs xs' ys ys' : List X} (h : Collision hash xs ys)
    (hx : ∀ x ∈ xs, x ∈ xs') (hy : ∀ y ∈ ys, y ∈ ys') : Collision hash xs' ys' := by
  obtain ⟨x, hxm, y, hym, hne, heq⟩ := h
  exact ⟨x, hx x hxm, y, hy y hym, hne, heq⟩

/-- Lists of one length with the same digests are equal or collide. -/
theorem eq_or_collision {hash : X → D} {xs ys : List X} (h : xs.map hash = ys.map hash) :
    xs = ys ∨ Collision hash xs ys := by
  induction xs generalizing ys with
  | nil =>
    left
    exact (List.map_eq_nil_iff.mp h.symm).symm
  | cons x xs ih =>
    cases ys with
    | nil => simp at h
    | cons y ys =>
      simp only [List.map_cons, List.cons.injEq] at h
      obtain ⟨hhead, htail⟩ := h
      by_cases hxy : x = y
      · rcases ih htail with hrest | hcoll
        · exact Or.inl (by rw [hxy, hrest])
        · exact Or.inr (hcoll.mono (fun _ => List.mem_cons_of_mem _)
            (fun _ => List.mem_cons_of_mem _))
      · exact Or.inr ⟨x, List.mem_cons_self, y, List.mem_cons_self, hxy, hhead⟩

namespace Scheme

variable {S : Scheme L X D} {hash : X → D}

theorem root_of_single {l : L} {x : X} (rounds : ℕ) (h : S.blocks l = [x]) :
    S.root hash (rounds + 1) l = some (hash x) := by
  simp [root, h]

theorem root_of_many {l : L} (rounds : ℕ) (h : (S.blocks l).length ≠ 1) :
    S.root hash (rounds + 1) l = S.root hash rounds (S.next hash l) := by
  rw [root]
  split
  · simp_all
  · rfl

theorem hashed_of_single {l : L} {x : X} (rounds : ℕ) (h : S.blocks l = [x]) :
    S.hashed hash (rounds + 1) l = [x] := by
  simp [hashed, h]

theorem hashed_of_many {l : L} (rounds : ℕ) (h : (S.blocks l).length ≠ 1) :
    S.hashed hash (rounds + 1) l = S.blocks l ++ S.hashed hash rounds (S.next hash l) := by
  rw [hashed]
  split
  · simp_all
  · rfl

/-- The digests of a level's blocks decide its root. -/
theorem root_congr {l l' : L} (rounds : ℕ)
    (h : (S.blocks l).map hash = (S.blocks l').map hash) :
    S.root hash rounds l = S.root hash rounds l' := by
  cases rounds with
  | zero => rfl
  | succ rounds =>
    have hlen : (S.blocks l).length = (S.blocks l').length := by
      simpa using congrArg List.length h
    by_cases hone : (S.blocks l).length = 1
    · obtain ⟨x, hx⟩ := List.length_eq_one_iff.mp hone
      obtain ⟨y, hy⟩ := List.length_eq_one_iff.mp (hlen ▸ hone)
      rw [hx, hy] at h
      rw [root_of_single rounds hx, root_of_single rounds hy, (List.cons.inj h).1]
    · rw [root_of_many rounds hone, root_of_many rounds (hlen ▸ hone)]
      simp only [next, h]

/-- When every level that is not a single block shrinks, the root is reached
within as many rounds as the level is large. -/
theorem exists_root {size : L → ℕ} {good : L → Prop}
    (hstep : ∀ l, good l → (S.blocks l).length ≠ 1 →
      size (S.next hash l) < size l ∧ good (S.next hash l))
    (l : L) (hl : good l) (rounds : ℕ) (hr : size l < rounds) :
    ∃ d, S.root hash rounds l = some d := by
  induction rounds generalizing l with
  | zero => omega
  | succ rounds ih =>
    by_cases hone : (S.blocks l).length = 1
    · obtain ⟨x, hx⟩ := List.length_eq_one_iff.mp hone
      exact ⟨hash x, root_of_single rounds hx⟩
    · obtain ⟨hlt, hgood⟩ := hstep l hl hone
      rw [root_of_many rounds hone]
      exact ih _ hgood (by omega)

/-- The root binds the level. The induction is on the rounds of the first run;
equal sizes keep the two runs at the same shape. -/
theorem root_binds {size : L → ℕ} (hS : S.Faithful size) {l l' : L} {m n : ℕ} {d : D}
    (hsize : size l = size l') (h : S.root hash m l = some d)
    (h' : S.root hash n l' = some d) :
    l = l' ∨ Collision hash (S.hashed hash m l) (S.hashed hash n l') := by
  induction m generalizing l l' n with
  | zero => simp [root] at h
  | succ m ih =>
    cases n with
    | zero => simp [root] at h'
    | succ n =>
      have hlen := hS.blocks_length l l' hsize
      by_cases hone : (S.blocks l).length = 1
      · obtain ⟨x, hx⟩ := List.length_eq_one_iff.mp hone
        obtain ⟨y, hy⟩ := List.length_eq_one_iff.mp (hlen ▸ hone)
        rw [root_of_single m hx] at h
        rw [root_of_single n hy] at h'
        rw [hashed_of_single m hx, hashed_of_single n hy]
        have hd : [x].map hash = [y].map hash := by
          simpa using Option.some.inj (h.trans h'.symm)
        rcases eq_or_collision hd with heq | hcoll
        · exact Or.inl (hS.blocks_inj l l' hsize (by rw [hx, hy, heq]))
        · exact Or.inr hcoll
      · have hone' : (S.blocks l').length ≠ 1 := hlen ▸ hone
        rw [root_of_many m hone] at h
        rw [root_of_many n hone'] at h'
        rw [hashed_of_many m hone, hashed_of_many n hone']
        have hnext : size (S.next hash l) = size (S.next hash l') :=
          hS.size_join _ _ (by simpa using hlen)
        rcases ih hnext h h' with heq | hcoll
        · rcases eq_or_collision (hS.join_inj _ _ heq) with hblocks | hcoll
          · exact Or.inl (hS.blocks_inj l l' hsize hblocks)
          · exact Or.inr (hcoll.mono (fun _ => List.mem_append_left _)
              (fun _ => List.mem_append_left _))
        · exact Or.inr (hcoll.mono (fun _ => List.mem_append_right _)
            (fun _ => List.mem_append_right _))

end Scheme

end Lamfold.HashTree
