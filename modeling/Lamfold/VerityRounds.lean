import Lamfold.VerityBlocks
import Mathlib.Order.Bounds.Basic

/-!
How many rounds the level loop of the fs-verity tree takes. A block of two digests makes
every level shrink to a single block. With blocks of one digest longer data keeps its
levels, and is hashed for ever. With smaller ones they grow, until the digests of a level
are more bytes than a vector may have.
-/
namespace Lamfold.Verity

open Effects Bytes HashTree

/-- The level after `k` rounds of the loop. -/
def levelAfter (sha256 : Sha256) (bs : ℕ) (saltPrefix data : List UInt8) : ℕ → List UInt8
  | 0 => data
  | k + 1 => (treeScheme saltPrefix bs).next sha256 (levelAfter sha256 bs saltPrefix data k)

/-- The bytes of the digests of a level's blocks, which is the capacity that a round asks
for. -/
def capacity (bs : ℕ) (level : List UInt8) : ℕ := divCeil level.length bs * hashLen

/-- The loop goes up `n` levels and returns the hash of the last: more rounds than `n` are
enough, and fewer are not. -/
def TakesRounds (sha256 : Sha256) (bs : ℕ) (saltPrefix data : List UInt8) (n : ℕ) : Prop :=
  ∀ rounds, merkleLoop sha256 bs saltPrefix rounds data =
    if n < rounds then
      .ok (sha256 (blockInput saltPrefix bs (levelAfter sha256 bs saltPrefix data n)))
    else .error .hang

/-- No number of rounds is enough. -/
def LoopsForever (sha256 : Sha256) (bs : ℕ) (saltPrefix data : List UInt8) : Prop :=
  ∀ rounds, merkleLoop sha256 bs saltPrefix rounds data = .error .hang

/-- The loop goes up `n` levels and panics in the next round. -/
def PanicsAfter (sha256 : Sha256) (bs : ℕ) (saltPrefix data : List UInt8) (n : ℕ) : Prop :=
  ∀ rounds, merkleLoop sha256 bs saltPrefix rounds data =
    if n < rounds then .error .panic else .error .hang

section Levels

variable {sha256 : Sha256} {bs : ℕ} {saltPrefix data : List UInt8}

theorem levelAfter_length (k : ℕ) :
    (levelAfter sha256 bs saltPrefix data (k + 1)).length =
      capacity bs (levelAfter sha256 bs saltPrefix data k) := by
  rw [levelAfter, next_length, Nat.mul_comm]
  rfl

theorem levelAfter_succ (k : ℕ) :
    levelAfter sha256 bs saltPrefix data (k + 1) =
      levelAfter sha256 bs saltPrefix ((treeScheme saltPrefix bs).next sha256 data) k := by
  induction k with
  | zero => rfl
  | succ k ih => rw [levelAfter, ih, levelAfter]

/-- Through levels of more than one block whose digests have room the loop goes up. -/
theorem merkleLoop_climbs (hbs : 0 < bs) {n : ℕ}
    (hup : ∀ k, k < n → bs < (levelAfter sha256 bs saltPrefix data k).length ∧
      capacity bs (levelAfter sha256 bs saltPrefix data k) < 2 ^ 63) (rounds : ℕ) :
    merkleLoop sha256 bs saltPrefix rounds data =
      if n ≤ rounds then
        merkleLoop sha256 bs saltPrefix (rounds - n) (levelAfter sha256 bs saltPrefix data n)
      else .error .hang := by
  induction n generalizing data rounds with
  | zero => rfl
  | succ n ih =>
    obtain ⟨hlong, hroom⟩ : bs < data.length ∧ capacity bs data < 2 ^ 63 := hup 0 (Nat.succ_pos n)
    cases rounds with
    | zero => rfl
    | succ rounds =>
      have hnext : ∀ k, k < n →
          bs < (levelAfter sha256 bs saltPrefix
            ((treeScheme saltPrefix bs).next sha256 data) k).length ∧
          capacity bs (levelAfter sha256 bs saltPrefix
            ((treeScheme saltPrefix bs).next sha256 data) k) < 2 ^ 63 := by
        intro k hk
        rw [← levelAfter_succ]
        exact hup (k + 1) (Nat.succ_lt_succ hk)
      rw [merkleLoop_of_lt sha256 saltPrefix hbs rounds hlong]
      refine (if_pos hroom).trans ?_
      rw [ih hnext rounds, levelAfter_succ]
      simp only [Nat.succ_le_succ_iff, Nat.reduceSubDiff]

/-- The loop goes up until the first level that is a single block. -/
theorem takesRounds_of_least (hbs : 0 < bs) {n : ℕ}
    (hn : IsLeast {k | (levelAfter sha256 bs saltPrefix data k).length ≤ bs} n)
    (hroom : ∀ k, k < n → capacity bs (levelAfter sha256 bs saltPrefix data k) < 2 ^ 63) :
    TakesRounds sha256 bs saltPrefix data n := by
  obtain ⟨hlast, hleast⟩ := hn
  have hlong : ∀ k, k < n → bs < (levelAfter sha256 bs saltPrefix data k).length := by
    intro k hk
    by_contra hle
    exact absurd (hleast (Nat.le_of_not_lt hle)) (Nat.not_le_of_lt hk)
  intro rounds
  rw [merkleLoop_climbs hbs (fun k hk => ⟨hlong k hk, hroom k hk⟩)]
  rcases Nat.lt_or_ge n rounds with hmore | hfewer
  · obtain ⟨left, hleft⟩ : ∃ left, rounds - n = left + 1 := ⟨rounds - n - 1, by omega⟩
    rw [if_pos (Nat.le_of_lt hmore), if_pos hmore, hleft]
    exact merkleLoop_of_le sha256 saltPrefix hbs left hlast
  · rw [if_neg (Nat.not_lt_of_le hfewer)]
    split
    · rw [Nat.sub_eq_zero_of_le hfewer]
      rfl
    · rfl

/-- With no single block on the way, it goes up until the first level whose digests have no
room. -/
theorem panicsAfter_of_least (hbs : 0 < bs) {n : ℕ}
    (hn : IsLeast {k | 2 ^ 63 ≤ capacity bs (levelAfter sha256 bs saltPrefix data k)} n)
    (hlong : ∀ k, bs < (levelAfter sha256 bs saltPrefix data k).length) :
    PanicsAfter sha256 bs saltPrefix data n := by
  obtain ⟨hlast, hleast⟩ := hn
  have hroom : ∀ k, k < n → capacity bs (levelAfter sha256 bs saltPrefix data k) < 2 ^ 63 := by
    intro k hk
    by_contra hlarge
    exact absurd (hleast (Nat.le_of_not_lt hlarge)) (Nat.not_le_of_lt hk)
  intro rounds
  rw [merkleLoop_climbs hbs (fun k hk => ⟨hlong k, hroom k hk⟩)]
  rcases Nat.lt_or_ge n rounds with hmore | hfewer
  · obtain ⟨left, hleft⟩ : ∃ left, rounds - n = left + 1 := ⟨rounds - n - 1, by omega⟩
    rw [if_pos (Nat.le_of_lt hmore), if_pos hmore, hleft,
      merkleLoop_of_lt sha256 saltPrefix hbs left (hlong n)]
    exact if_neg (Nat.not_lt_of_le hlast)
  · rw [if_neg (Nat.not_lt_of_le hfewer)]
    split
    · rw [Nat.sub_eq_zero_of_le hfewer]
      rfl
    · rfl

/-- With blocks of at most one digest, two blocks give at least two again. -/
theorem levelAfter_long (hbs : 0 < bs) (hone : bs ≤ 32) (h : bs < data.length) (k : ℕ) :
    bs < (levelAfter sha256 bs saltPrefix data k).length := by
  induction k with
  | zero => exact h
  | succ k ih =>
    have htwo : 1 < divCeil (levelAfter sha256 bs saltPrefix data k).length bs :=
      (lt_divCeil_iff hbs).mpr (by omega)
    rw [levelAfter_length, capacity, hashLen]
    omega

theorem capacity_constant (k : ℕ) :
    capacity 32 (levelAfter sha256 32 saltPrefix data k) = capacity 32 data := by
  have hcount : ∀ n, divCeil (n * 32) 32 = n := by
    intro n
    unfold divCeil
    omega
  induction k with
  | zero => rfl
  | succ k ih => rw [capacity, levelAfter_length, capacity, hashLen, hcount, ← ih]; rfl

theorem loopsForever_of_lt (hroom : capacity 32 data < 2 ^ 63) (h : 32 < data.length) :
    LoopsForever sha256 32 saltPrefix data := by
  intro rounds
  have hup : ∀ k, k < rounds → 32 < (levelAfter sha256 32 saltPrefix data k).length ∧
      capacity 32 (levelAfter sha256 32 saltPrefix data k) < 2 ^ 63 := by
    intro k _
    rw [capacity_constant]
    exact ⟨levelAfter_long (by decide) le_rfl h k, hroom⟩
  rw [merkleLoop_climbs (by decide) hup rounds, if_pos le_rfl, Nat.sub_self]
  rfl

/-- With blocks of half a digest every level of two blocks has at least twice the bytes of
the one below. -/
theorem levelAfter_grows (hbs : 0 < bs) (hhalf : bs ≤ 16) (k : ℕ) :
    2 ^ k * data.length ≤ (levelAfter sha256 bs saltPrefix data k).length := by
  induction k with
  | zero => rw [Nat.pow_zero, Nat.one_mul]; exact le_rfl
  | succ k ih =>
    have hdouble : ∀ n, 2 * n ≤ divCeil n bs * 32 := by
      intro n
      have hlast : ¬divCeil n bs * bs < n :=
        (lt_divCeil_iff hbs).not.mp (Nat.lt_irrefl _)
      have hmono := Nat.mul_le_mul_left (divCeil n bs) hhalf
      omega
    have hlevel := hdouble (levelAfter sha256 bs saltPrefix data k).length
    rw [levelAfter_length, capacity, hashLen, Nat.pow_succ]
    calc 2 ^ k * 2 * data.length = 2 * (2 ^ k * data.length) := by
          rw [Nat.mul_comm (2 ^ k), Nat.mul_assoc]
      _ ≤ 2 * (levelAfter sha256 bs saltPrefix data k).length := Nat.mul_le_mul_left 2 ih
      _ ≤ divCeil (levelAfter sha256 bs saltPrefix data k).length bs * 32 := hlevel

/-- After at most 63 such levels there is no room for the digests. -/
theorem exists_no_room (hbs : 0 < bs) (hhalf : bs ≤ 16) (h : bs < data.length) (sha256 : Sha256)
    (saltPrefix : List UInt8) :
    ∃ n, n ≤ 63 ∧
      IsLeast {k | 2 ^ 63 ≤ capacity bs (levelAfter sha256 bs saltPrefix data k)} n := by
  have hfull : 2 ^ 63 ≤ capacity bs (levelAfter sha256 bs saltPrefix data 63) := by
    have hgrows : 2 ^ (63 + 1) * data.length ≤ (levelAfter sha256 bs saltPrefix data (63 + 1)).length :=
      levelAfter_grows hbs hhalf (63 + 1)
    rw [← levelAfter_length]
    omega
  classical
  have hsome : ∃ k, 2 ^ 63 ≤ capacity bs (levelAfter sha256 bs saltPrefix data k) := ⟨63, hfull⟩
  exact ⟨Nat.find hsome, Nat.find_min' hsome hfull, Nat.find_spec hsome,
    fun k hk => Nat.find_min' hsome hk⟩

/-- With blocks of two digests, some level is a single block: until then every level is
shorter than the one before. -/
theorem exists_least (hbs : 64 ≤ bs) (sha256 : Sha256) (saltPrefix data : List UInt8) :
    ∃ n, IsLeast {k | (levelAfter sha256 bs saltPrefix data k).length ≤ bs} n := by
  have hsome : ∃ k, (levelAfter sha256 bs saltPrefix data k).length ≤ bs := by
    by_contra hnone
    have hlong : ∀ k, bs < (levelAfter sha256 bs saltPrefix data k).length :=
      fun k => Nat.lt_of_not_le fun hle => hnone ⟨k, hle⟩
    have hshrinks : ∀ k, k + (levelAfter sha256 bs saltPrefix data k).length ≤ data.length := by
      intro k
      induction k with
      | zero => rw [Nat.zero_add]; exact le_rfl
      | succ k ih =>
        have hless := next_shrinks sha256 saltPrefix hbs (hlong k)
        rw [levelAfter]
        omega
    have hmax := hshrinks (data.length + 1)
    omega
  classical
  exact ⟨Nat.find hsome, Nat.find_spec hsome, fun k hk => Nat.find_min' hsome hk⟩

theorem capacity_lt (hbs : 64 ≤ bs) (hdata : data.length < 2 ^ 63) {n : ℕ}
    (hn : n ∈ lowerBounds {k | (levelAfter sha256 bs saltPrefix data k).length ≤ bs}) {k : ℕ}
    (hk : k < n) : capacity bs (levelAfter sha256 bs saltPrefix data k) < 2 ^ 63 := by
  have hlong : ∀ j, j < n → bs < (levelAfter sha256 bs saltPrefix data j).length := by
    intro j hj
    by_contra hle
    exact absurd (hn (Nat.le_of_not_lt hle)) (Nat.not_le_of_lt hj)
  have hlevel : ∀ j, j ≤ n → (levelAfter sha256 bs saltPrefix data j).length < 2 ^ 63 := by
    intro j hj
    induction j with
    | zero => exact hdata
    | succ j ih => exact Nat.lt_trans (next_shrinks sha256 saltPrefix hbs (hlong j hj)) (ih (by omega))
  rw [← levelAfter_length]
  exact hlevel (k + 1) hk

end Levels

/-- Blocks of fewer than two digests have one, or at most half a one. -/
theorem blockSize_small {blockLog : UInt8} (h : 2 ^ blockLog.toNat ≤ 32) :
    2 ^ blockLog.toNat = 32 ∨ 2 ^ blockLog.toNat ≤ 16 := by
  rcases Nat.lt_or_ge blockLog.toNat 5 with hlt | hge
  · right
    calc 2 ^ blockLog.toNat ≤ 2 ^ 4 := Nat.pow_le_pow_right (by norm_num) (by omega)
      _ = 16 := by norm_num
  · left
    have hle : 2 ^ 5 ≤ 2 ^ blockLog.toNat := Nat.pow_le_pow_right (by norm_num) hge
    omega

theorem capacity_lt_iff
    (data : List UInt8) : capacity 32 data < 2 ^ 63 ↔ data.length ≤ 2 ^ 63 - 32 := by
  have hcount := lt_divCeil_iff (by decide : 0 < 32) (a := data.length) (i := 2 ^ 58 - 1)
  unfold capacity hashLen
  omega

/-- Blocks of fewer than two digests: a file of one block is hashed at once, and how a longer one
ends. -/
theorem smallBlocks {bs : ℕ} (hbs : 0 < bs) (hsmall : bs = 32 ∨ bs ≤ 16) (sha256 : Sha256)
    (saltPrefix data : List UInt8) :
    (data.length ≤ bs → TakesRounds sha256 bs saltPrefix data 0) ∧
      (bs < data.length →
        if bs = 32 ∧ data.length ≤ 2 ^ 63 - 32 then LoopsForever sha256 bs saltPrefix data
        else ∃ n, n ≤ 63 ∧ PanicsAfter sha256 bs saltPrefix data n ∧
          IsLeast {k | 2 ^ 63 ≤ capacity bs (levelAfter sha256 bs saltPrefix data k)} n) := by
  have hone : bs ≤ 32 := by omega
  refine ⟨fun hle => takesRounds_of_least hbs ⟨hle, fun k _ => Nat.zero_le k⟩ (fun k hk => nomatch hk),
    ?_⟩
  intro hlong
  have hlevels := fun k => @levelAfter_long sha256 bs saltPrefix data hbs hone hlong k
  split
  · rename_i hforever
    obtain ⟨rfl, hsize⟩ := hforever
    exact loopsForever_of_lt ((capacity_lt_iff data).mpr hsize) hlong
  · rename_i hends
    rcases hsmall with rfl | hhalf
    · have hfirst : 2 ^ 63 ≤ capacity 32 data := by
        by_contra hroom
        exact hends ⟨rfl, (capacity_lt_iff data).mp (Nat.lt_of_not_le hroom)⟩
      have hleast : IsLeast
          {k | 2 ^ 63 ≤ capacity 32 (levelAfter sha256 32 saltPrefix data k)} 0 :=
        ⟨hfirst, fun k _ => Nat.zero_le k⟩
      exact ⟨0, Nat.zero_le _, panicsAfter_of_least hbs hleast hlevels, hleast⟩
    · obtain ⟨n, hn, hleast⟩ := exists_no_room hbs hhalf hlong sha256 saltPrefix
      exact ⟨n, hn, panicsAfter_of_least hbs hleast hlevels, hleast⟩

section Totals

variable {sha256 : Sha256} {data salt : List UInt8} {blockLog : UInt8}

theorem merkleRoot_fails {saltPrefix : List UInt8} {d : Sha256Digest} (h6 : blockLog.toNat < 6)
    (hlong : 2 ^ blockLog.toNat < data.length) :
    merkleRoot sha256 data (2 ^ blockLog.toNat) saltPrefix ≠ .ok d := by
  have hsmall : 2 ^ blockLog.toNat ≤ 32 :=
    calc 2 ^ blockLog.toNat ≤ 2 ^ 5 := Nat.pow_le_pow_right (by norm_num) (Nat.le_of_lt_succ h6)
      _ = 32 := by norm_num
  have hdata : data ≠ [] := List.length_pos_iff.mp (Nat.lt_of_le_of_lt (Nat.zero_le _) hlong)
  have hends := (smallBlocks (Nat.two_pow_pos _) (blockSize_small hsmall) sha256 saltPrefix data).2 hlong
  rw [merkleRoot, if_neg hdata]
  split at hends
  · rw [hends]
    exact fun h => nomatch h
  · obtain ⟨n, -, hpanics, -⟩ := hends
    rw [hpanics]
    split
    · exact fun h => nomatch h
    · exact fun h => nomatch h

/-- The measurement of every file exists exactly for blocks of at least two digests. -/
theorem fsverityDigestSha256_total_iff (sha256 : Sha256) (blockLog : UInt8) (salt : List UInt8) :
    (∀ data : Slice, ∃ d, fsverityDigestSha256 sha256 data.val blockLog salt = .ok d) ↔
      6 ≤ blockLog.toNat ∧ blockLog.toNat < 64 := by
  constructor
  · intro htotal
    by_contra hrange
    have hlen : (List.replicate 33 (0 : UInt8)).length < 2 ^ 63 := by decide
    obtain ⟨d, hd⟩ := htotal ⟨List.replicate 33 0, hlen⟩
    obtain ⟨bs, hbs, hd⟩ := bind_eq_ok.mp hd
    obtain ⟨h64, rfl⟩ := shiftOne_eq_ok.mp hbs
    obtain ⟨root, hroot, -⟩ := bind_eq_ok.mp hd
    have h6 : blockLog.toNat < 6 := by omega
    have hsmall : 2 ^ blockLog.toNat ≤ 2 ^ 5 :=
      Nat.pow_le_pow_right (by norm_num) (Nat.le_of_lt_succ h6)
    refine merkleRoot_fails h6 ?_ hroot
    rw [List.length_replicate]
    omega
  · rintro ⟨h6, h64⟩ data
    exact fsverityDigestSha256_total sha256 data salt h6 h64

theorem over_total_iff (sha256 : Sha256) (blockLog : UInt8) (salt : List UInt8) :
    (∀ data : Slice, ∃ v, MerkleVerifier.over sha256 data.val blockLog salt = .ok v) ↔
      6 ≤ blockLog.toNat ∧ blockLog.toNat < 64 := by
  constructor
  · intro htotal
    rw [← fsverityDigestSha256_total_iff sha256 blockLog salt]
    intro data
    obtain ⟨v, hv⟩ := htotal data
    exact ⟨v.measurement, (MerkleVerifier.over_trusts hv).measurement_eq⟩
  · rintro ⟨h6, h64⟩ data
    exact MerkleVerifier.over_total sha256 data salt h6 h64

/-- The root is the hash of the first level that is a single block. -/
theorem merkleRoot_of_least {bs n : ℕ} {data : Slice} {saltPrefix : List UInt8} (hbs : 64 ≤ bs)
    (hdata : data.val ≠ []) (hn : TakesRounds sha256 bs saltPrefix data.val n) :
    merkleRoot sha256 data.val bs saltPrefix =
      .ok (sha256 (blockInput saltPrefix bs (levelAfter sha256 bs saltPrefix data.val n))) := by
  obtain ⟨root, hroot⟩ := merkleRoot_total sha256 data saltPrefix hbs
  rw [merkleRoot, if_neg hdata, hn] at hroot ⊢
  split at hroot
  · rename_i henough
    rw [if_pos henough]
  · cases hroot

end Totals

/-- Each level has a digest for every block of the one below. With blocks of at least two
digests the loop goes up to the first level that is a single block. With smaller ones it
returns only for data that is a single block: longer data is hashed for ever with blocks
of one digest, and else until there is no room for the digests. So a file of any length can
be measured and trusted exactly for block sizes from 64 on. -/
theorem merkleLoop_rounds (sha256 : Sha256) (blockLog : UInt8) (salt : List UInt8) :
    (∀ data k, (levelAfter sha256 (2 ^ blockLog.toNat) (paddedSalt salt) data (k + 1)).length =
      divCeil (levelAfter sha256 (2 ^ blockLog.toNat) (paddedSalt salt) data k).length
        (2 ^ blockLog.toNat) * 32) ∧
    (64 ≤ 2 ^ blockLog.toNat → ∀ data : Slice, ∃ n,
      IsLeast {k | (levelAfter sha256 (2 ^ blockLog.toNat) (paddedSalt salt) data.val k).length ≤
        2 ^ blockLog.toNat} n ∧
      TakesRounds sha256 (2 ^ blockLog.toNat) (paddedSalt salt) data.val n ∧
      (data.val ≠ [] → merkleRoot sha256 data.val (2 ^ blockLog.toNat) (paddedSalt salt) =
        .ok (sha256 (blockInput (paddedSalt salt) (2 ^ blockLog.toNat)
          (levelAfter sha256 (2 ^ blockLog.toNat) (paddedSalt salt) data.val n))))) ∧
    (2 ^ blockLog.toNat ≤ 32 → ∀ data : Slice,
      (data.val.length ≤ 2 ^ blockLog.toNat →
        TakesRounds sha256 (2 ^ blockLog.toNat) (paddedSalt salt) data.val 0) ∧
      (2 ^ blockLog.toNat < data.val.length →
        if 2 ^ blockLog.toNat = 32 ∧ data.val.length ≤ 2 ^ 63 - 32 then
          LoopsForever sha256 (2 ^ blockLog.toNat) (paddedSalt salt) data.val
        else ∃ n, n ≤ 63 ∧ PanicsAfter sha256 (2 ^ blockLog.toNat) (paddedSalt salt) data.val n ∧
          IsLeast {k | 2 ^ 63 ≤ capacity (2 ^ blockLog.toNat)
            (levelAfter sha256 (2 ^ blockLog.toNat) (paddedSalt salt) data.val k)} n)) ∧
    ((∀ data : Slice, ∃ d, fsverityDigestSha256 sha256 data.val blockLog salt = .ok d) ↔
      6 ≤ blockLog.toNat ∧ blockLog.toNat < 64) ∧
    ((∀ data : Slice, ∃ v, MerkleVerifier.over sha256 data.val blockLog salt = .ok v) ↔
      6 ≤ blockLog.toNat ∧ blockLog.toNat < 64) := by
  have hbs : 0 < 2 ^ blockLog.toNat := Nat.two_pow_pos _
  refine ⟨fun data k => levelAfter_length k, ?_, ?_, fsverityDigestSha256_total_iff sha256 blockLog salt,
    over_total_iff sha256 blockLog salt⟩
  · intro hlarge data
    obtain ⟨n, hn⟩ := exists_least hlarge sha256 (paddedSalt salt) data.val
    have hrounds := takesRounds_of_least hbs hn
      fun k hk => capacity_lt hlarge data.property hn.2 hk
    exact ⟨n, hn, hrounds, fun hdata => merkleRoot_of_least hlarge hdata hrounds⟩
  · intro hsmall data
    exact smallBlocks hbs (blockSize_small hsmall) sha256 (paddedSalt salt) data.val

/-- Two bytes in blocks of one byte are not hashed for ever, whatever the hash. -/
theorem twoBytes_end : ¬∃ sha256, LoopsForever sha256 (2 ^ (0 : UInt8).toNat) (paddedSalt [])
    [0, 0] := by
  rintro ⟨sha256, hforever⟩
  have hbs : 0 < 2 ^ (0 : UInt8).toNat := by decide
  have hends := (smallBlocks hbs (.inr (by decide)) sha256 (paddedSalt []) [0, 0]).2 (by decide)
  rw [if_neg (by decide)] at hends
  obtain ⟨n, -, hpanics, -⟩ := hends
  have hpanic := hpanics (n + 1)
  rw [if_pos (Nat.lt_succ_self n), hforever] at hpanic
  cases hpanic

end Lamfold.Verity
