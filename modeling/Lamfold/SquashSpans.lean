import Lamfold.Noted
import Lamfold.SquashListing
import Mathlib.Order.Bounds.Basic

/-!
Spans of SquashFS metadata. In a run of metadata blocks a span is the bytes of their data
from an offset on, and no block behind the last one it needs is decoded. From any source,
every block but the first and the last adds to the span, so reading it ends.
-/
namespace Lamfold.SquashFs

open Effects Bytes

/-- How many of the lists, from the first on, hold `n` items. -/
def piecesFor {α : Type} (n : ℕ) : List (List α) → ℕ
  | [] => 0
  | xs :: rest => if n = 0 then 0 else piecesFor (n - xs.length) rest + 1

theorem piecesFor_zero {α : Type} (pieces : List (List α)) : piecesFor 0 pieces = 0 := by
  cases pieces with
  | nil => rfl
  | cons xs rest => exact if_pos rfl

theorem piecesFor_cons {α : Type} {n : ℕ} (hn : 0 < n) (xs : List α) (rest : List (List α)) :
    piecesFor n (xs :: rest) = piecesFor (n - xs.length) rest + 1 := if_neg (Nat.ne_of_gt hn)

theorem piecesFor_isLeast {α : Type} {n : ℕ} {pieces : List (List α)}
    (h : n ≤ pieces.flatten.length) :
    IsLeast {m | n ≤ (pieces.take m).flatten.length} (piecesFor n pieces) := by
  induction pieces generalizing n with
  | nil =>
    refine ⟨?_, fun m _ => Nat.zero_le m⟩
    exact h
  | cons xs rest ih =>
    rcases Nat.eq_zero_or_pos n with rfl | hn
    · rw [piecesFor_zero]
      exact ⟨Nat.zero_le _, fun m _ => Nat.zero_le m⟩
    · rw [List.flatten_cons, List.length_append] at h
      obtain ⟨henough, hleast⟩ := @ih (n - xs.length) (by omega)
      rw [piecesFor_cons hn]
      constructor
      · change n ≤ (xs :: rest.take _).flatten.length
        change n - xs.length ≤ _ at henough
        rw [List.flatten_cons, List.length_append]
        omega
      · intro m hm
        cases m with
        | zero =>
          change n ≤ 0 at hm
          omega
        | succ m =>
          refine Nat.succ_le_succ (hleast ?_)
          change n ≤ (xs :: rest.take m).flatten.length at hm
          rw [List.flatten_cons, List.length_append] at hm
          change n - xs.length ≤ _
          omega

variable {ρ : Type}

namespace Decoded

section Reading

variable (codecs : Codecs ρ) (vol : Volume)

/-- `read_meta_block`, with a note of the offset it decodes a block at. -/
def readMetaBlock (at_ : ℕ) : Noted ℕ Fault (List UInt8 × ℕ) :=
  ⟨SquashFs.readMetaBlock codecs vol at_, [at_]⟩

def readMetaFrom (length : ℕ) (block : List UInt8) (next pos : ℕ) (out : List UInt8) :
    Noted ℕ Fault (List UInt8) :=
  if out.length < length then
    if pos ≥ block.length then do
      let (block, next) ← readMetaBlock codecs vol next
      if block = [] then return out
      else do
        let take := min (length - out.length) block.length
        readMetaFrom length block next take (out ++ block.take take)
    else do
      let take := min (length - out.length) (block.length - pos)
      readMetaFrom length block next (pos + take) (out ++ (block.drop pos).take take)
  else pure out
  termination_by length - out.length
  decreasing_by
    · have hpos : 0 < block.length := List.length_pos_iff.mpr ‹_›
      simp only [List.length_append, List.length_take]
      omega
    · simp only [List.length_append, List.length_take, List.length_drop]
      omega

def readMetaSpan (absBlock offset length : ℕ) : Noted ℕ Fault (List UInt8) := do
  let _ ← checkedFullReadLen length
  let (block, next) ← readMetaBlock codecs vol absBlock
  readMetaFrom codecs vol length block next offset []

end Reading

section Notes

variable {codecs : Codecs ρ} {vol : Volume}

/-- The notes change nothing. -/
theorem readMetaFrom_result (length : ℕ) (block : List UInt8) (next pos : ℕ) (out : List UInt8) :
    (readMetaFrom codecs vol length block next pos out).result =
      SquashFs.readMetaFrom codecs vol length block next pos out := by
  fun_induction SquashFs.readMetaFrom codecs vol length block next pos out with
  | case1 block next pos out hlen hpos ih =>
    rw [readMetaFrom, if_pos hlen, if_pos hpos, Noted.bind_result]
    refine congrArg _ (funext fun found => ?_)
    obtain ⟨block', next'⟩ := found
    dsimp only
    split
    · rfl
    · rename_i hne
      exact ih block' next' hne
  | case2 block next pos out hlen hpos take =>
    rename_i ih
    rw [readMetaFrom, if_pos hlen, if_neg hpos]
    exact ih
  | case3 block next pos out hlen =>
    rw [readMetaFrom, if_neg hlen]
    rfl

theorem readMetaSpan_result (absBlock offset length : ℕ) :
    (readMetaSpan codecs vol absBlock offset length).result =
      SquashFs.readMetaSpan codecs vol absBlock offset length := by
  unfold readMetaSpan SquashFs.readMetaSpan
  rw [Noted.bind_result]
  refine congrArg _ (funext fun _ => ?_)
  rw [Noted.bind_result]
  exact congrArg _ (funext fun found => readMetaFrom_result length found.1 found.2 offset [])

/-- Every block but the last adds to what is read. -/
theorem readMetaFrom_notes_le (length : ℕ) (block : List UInt8) (next pos : ℕ) (out : List UInt8) :
    (readMetaFrom codecs vol length block next pos out).notes.length ≤ length - out.length := by
  fun_induction readMetaFrom codecs vol length block next pos out with
  | case1 block next pos out hlen hpos ih =>
    cases hread : (readMetaBlock codecs vol next).result with
    | error e =>
      rw [Noted.bind_of_error hread]
      change 1 ≤ _
      omega
    | ok found =>
      obtain ⟨block', next'⟩ := found
      rw [Noted.bind_of_ok hread]
      dsimp only
      split
      · change 1 ≤ _
        omega
      · rename_i hne
        have hrest := ih block' next' hne
        have hpos := List.length_pos_iff.mpr hne
        dsimp only at hrest ⊢
        simp only [List.length_append, List.length_take] at hrest ⊢
        change 1 + _ ≤ _
        omega
  | case2 block next pos out hlen hpos take =>
    rename_i ih
    rw [List.length_append] at ih
    omega
  | case3 block next pos out hlen => exact Nat.zero_le _

/-- From any source, at most one block more than the bytes of a span is decoded. -/
theorem readMetaSpan_notes_le (absBlock offset length : ℕ) :
    (readMetaSpan codecs vol absBlock offset length).notes.length ≤ length + 1 := by
  unfold readMetaSpan
  cases hcap : checkedFullReadLen length with
  | error e => exact Nat.zero_le _
  | ok n =>
    change (readMetaBlock codecs vol absBlock >>= _).notes.length ≤ _
    cases hread : (readMetaBlock codecs vol absBlock).result with
    | error e =>
      rw [Noted.bind_of_error hread]
      exact Nat.succ_le_succ (Nat.zero_le _)
    | ok found =>
      obtain ⟨block, next⟩ := found
      have hrest := @readMetaFrom_notes_le _ codecs vol length block next offset []
      rw [Noted.bind_of_ok hread, List.length_append]
      rw [List.length_nil] at hrest
      change 1 + (readMetaFrom codecs vol length block next offset []).notes.length ≤ _
      omega

end Notes

end Decoded

/-- The metadata blocks from `at_` on, back to back, each with its offset. -/
inductive MetaBlocks (codecs : Codecs ρ) (vol : Volume) : ℕ → List (ℕ × List UInt8) → Prop
  | nil {at_ : ℕ} : MetaBlocks codecs vol at_ []
  | cons {at_ : ℕ} {data bytes : List UInt8} {blocks : List (ℕ × List UInt8)}
      (hslice : slice vol.src.content at_ bytes.length = some bytes)
      (hstored : MetaStored codecs vol.codec data bytes)
      (hrest : MetaBlocks codecs vol (at_ + bytes.length) blocks) :
      MetaBlocks codecs vol at_ ((at_, data) :: blocks)

section Spans

variable {codecs : Codecs ρ} {vol : Volume}

theorem MetaBlocks.run {at_ : ℕ} {blocks : List (ℕ × List UInt8)}
    (h : MetaBlocks codecs vol at_ blocks) : MetaRun codecs vol at_ (blocks.map Prod.snd) := by
  induction h with
  | nil => exact .nil
  | cons hslice hstored _ ih => exact .cons hslice hstored ih

/-- In a run of blocks, those are decoded that what is left to read needs. -/
theorem Decoded.readMetaFrom_notes {length next pos : ℕ} {block out : List UInt8}
    {blocks : List (ℕ × List UInt8)} (hrun : MetaBlocks codecs vol next blocks)
    (hne : ∀ b ∈ blocks, b.2 ≠ [])
    (hroom : length - out.length ≤ (block.length - pos) + (blocks.map Prod.snd).flatten.length) :
    (Decoded.readMetaFrom codecs vol length block next pos out).notes =
      (blocks.take (piecesFor (length - out.length - (block.length - pos))
        (blocks.map Prod.snd))).map Prod.fst := by
  fun_induction Decoded.readMetaFrom codecs vol length block next pos out generalizing blocks with
  | case1 block next pos out hlen hpos ih =>
    cases hrun with
    | nil =>
      rw [List.map_nil, List.flatten_nil, List.length_nil] at hroom
      omega
    | @cons _ data bytes blocks hslice hstored hrest =>
      have hdata := hne (next, data) List.mem_cons_self
      have hread : (Decoded.readMetaBlock codecs vol next).result = .ok (data, next + bytes.length) :=
        readMetaBlock_stored hstored hslice
      rw [List.map_cons, List.flatten_cons, List.length_append] at hroom
      dsimp only at hroom
      have hleft : length - (out ++ data.take (min (length - out.length) data.length)).length -
          (data.length - min (length - out.length) data.length) =
            length - out.length - data.length := by
        rw [List.length_append, List.length_take]
        omega
      have htail := ih data (next + bytes.length) hdata hrest
        (fun b hb => hne b (List.mem_cons_of_mem _ hb)) (by
          rw [List.length_append, List.length_take]
          omega)
      have hmore : length - out.length - (block.length - pos) = length - out.length := by omega
      rw [Noted.bind_of_ok hread, hmore, List.map_cons, piecesFor_cons (by omega), List.take_succ_cons,
        List.map_cons, ← hleft, ← htail]
      dsimp only
      rw [if_neg hdata]
      rfl
  | case2 block next pos out hlen hpos take =>
    rename_i ih
    have htake : (out ++ (block.drop pos).take take).length = out.length + take := by
      rw [List.length_append, List.length_take, List.length_drop]
      omega
    rw [ih hrun hne (by omega), htake]
    congr 3
    omega
  | case3 block next pos out hlen =>
    have hdone : length - out.length - (block.length - pos) = 0 := by omega
    rw [hdone, piecesFor_zero]
    rfl

/-- The first block is decoded, and those after it that the span needs. -/
theorem Decoded.readMetaSpan_notes {absBlock offset length : ℕ} {first : ℕ × List UInt8}
    {more : List (ℕ × List UInt8)} (hrun : MetaBlocks codecs vol absBlock (first :: more))
    (hne : ∀ b ∈ more, b.2 ≠ []) (hoffset : offset ≤ first.2.length) (hlength : 1 ≤ length)
    (hcap : length ≤ maxBootFileBytes)
    (hroom : offset + length ≤ ((first :: more).map Prod.snd).flatten.length) :
    (Decoded.readMetaSpan codecs vol absBlock offset length).notes =
      ((first :: more).take (piecesFor (offset + length) ((first :: more).map Prod.snd))).map
        Prod.fst := by
  cases hrun with
  | @cons _ data bytes _ hslice hstored hrest =>
    dsimp only at hoffset
    have hread : (Decoded.readMetaBlock codecs vol absBlock).result =
        .ok (data, absBlock + bytes.length) := readMetaBlock_stored hstored hslice
    rw [List.map_cons, List.flatten_cons, List.length_append] at hroom
    dsimp only at hroom
    have hnotes := @Decoded.readMetaFrom_notes _ codecs vol length _ offset data [] _ hrest hne
      (by rw [List.length_nil]; omega)
    have hleft : length - ([] : List UInt8).length - (data.length - offset) =
        offset + length - data.length := by
      rw [List.length_nil]
      omega
    unfold Decoded.readMetaSpan
    rw [checkedFullReadLen_eq_ok.mpr ⟨hcap, rfl⟩]
    change (Decoded.readMetaBlock codecs vol absBlock >>= _).notes = _
    rw [Noted.bind_of_ok hread, List.map_cons, piecesFor_cons (by omega), List.take_succ_cons,
      List.map_cons, ← hleft, ← hnotes]
    rfl

/-- A span of a run of metadata blocks is the bytes of their data from the offset on, and
no block is decoded but those up to the first with which there are enough bytes. From any
source a span is read or refused, after at most one block more than it has bytes. -/
theorem readMetaSpan_exact (codecs : Codecs ρ) (vol : Volume) {absBlock offset length : ℕ}
    {first : ℕ × List UInt8} {more : List (ℕ × List UInt8)}
    (hrun : MetaBlocks codecs vol absBlock (first :: more))
    (hne : ∀ b ∈ first :: more, b.2 ≠ []) (hoffset : offset ≤ first.2.length) (hlength : 1 ≤ length)
    (hcap : length ≤ maxBootFileBytes)
    (hroom : offset + length ≤ ((first :: more).map Prod.snd).flatten.length) :
    readMetaSpan codecs vol absBlock offset length =
        .ok ((((first :: more).map Prod.snd).flatten.drop offset).take length) ∧
      (∃ m, IsLeast {m | offset + length ≤ (((first :: more).map Prod.snd).take m).flatten.length} m ∧
        (Decoded.readMetaSpan codecs vol absBlock offset length).notes =
          ((first :: more).take m).map Prod.fst) ∧
      ∀ (hostile : Volume) (at_ off len : ℕ),
        Answered (readMetaSpan codecs hostile at_ off len) ∧
          (Decoded.readMetaSpan codecs hostile at_ off len).result =
            readMetaSpan codecs hostile at_ off len ∧
          (Decoded.readMetaSpan codecs hostile at_ off len).notes.length ≤ len + 1 := by
  have hne' : ∀ b ∈ more, b.2 ≠ [] := fun b hb => hne b (List.mem_cons_of_mem _ hb)
  refine ⟨?_, ⟨_, piecesFor_isLeast hroom,
    Decoded.readMetaSpan_notes hrun hne' hoffset hlength hcap hroom⟩, ?_⟩
  · have hblocks : ∀ b ∈ more.map Prod.snd, b ≠ [] := by
      intro b hb
      obtain ⟨block, hblock, rfl⟩ := List.mem_map.mp hb
      exact hne' block hblock
    rw [List.map_cons, List.flatten_cons, List.length_append] at hroom
    rw [List.map_cons, List.flatten_cons, List.drop_append_of_le_length hoffset]
    refine readMetaSpan_run hrun.run hblocks hcap ?_
    rw [List.length_append, List.length_drop]
    omega
  · intro hostile at_ off len
    exact ⟨answered_readMetaSpan, Decoded.readMetaSpan_result at_ off len,
      Decoded.readMetaSpan_notes_le at_ off len⟩

end Spans

/-- The bytes 7 to 9, in two blocks, and a third block that is not decoded. -/
def spanBlocks : List (List UInt8) := [[6, 7], [8, 9], [10]]

theorem spanBlocks_lt : (spanBlocks.flatMap storedBlock).length < 2 ^ 64 := by decide +kernel

def spanSource : Source := storedSource spanBlocks spanBlocks_lt

theorem spanSource_blocks : MetaBlocks noStreams (storedVolume spanSource) 0
    [(0, [6, 7]), (4, [8, 9]), (8, [10])] := by
  refine @MetaBlocks.cons _ _ _ 0 _ (storedBlock [6, 7]) _ (by decide +kernel)
    (.plain (by decide)) ?_
  refine @MetaBlocks.cons _ _ _ 4 _ (storedBlock [8, 9]) _ (by decide +kernel)
    (.plain (by decide)) ?_
  exact @MetaBlocks.cons _ _ _ 8 _ (storedBlock [10]) _ (by decide +kernel)
    (.plain (by decide)) .nil

theorem readMetaSpan_exact_twoBlocks :
    readMetaSpan noStreams (storedVolume spanSource) 0 1 3 = .ok [7, 8, 9] ∧
      ∃ m, IsLeast {m | 1 + 3 ≤ (([[6, 7], [8, 9], [10]] : List (List UInt8)).take m).flatten.length} m ∧
        (Decoded.readMetaSpan noStreams (storedVolume spanSource) 0 1 3).notes =
          (([0, 4, 8] : List ℕ).take m) := by
  obtain ⟨hbytes, ⟨m, hm, hnotes⟩, -⟩ := @readMetaSpan_exact _ noStreams (storedVolume spanSource)
    0 1 3 _ _ spanSource_blocks (by decide) (by decide) (by decide) (by decide) (by decide)
  refine ⟨hbytes, m, hm, ?_⟩
  rw [hnotes, List.map_take]
  rfl

end Lamfold.SquashFs
