import Lamfold.Bytes

/-!
The LZ4 block format. A block is a list of sequences, each of literals and, but for the
last, a copy of bytes a distance of 1 to 65535 back. What is copied may lie in the
output of this block or in the dictionary before it, and may overlap what it writes.
-/
namespace Lamfold.Lz4Block

open Bytes

/-- A copy of `length` bytes from `offset` bytes back. -/
structure Copy where
  offset : ℕ
  length : ℕ
  offset_pos : 0 < offset
  offset_lt : offset < 65536
  deriving Repr

structure Sequence where
  literals : List UInt8
  copy : Option Copy
  deriving Repr

/-- Bytes added up to the first that is not 255. -/
def extraLength : List UInt8 → Option (ℕ × List UInt8)
  | [] => none
  | b :: rest =>
    if b = 255 then (extraLength rest).map fun (n, rest) => (n + 255, rest)
    else some (b.toNat, rest)

/-- The length a nibble of the token stands for. -/
def fieldLength (nibble : ℕ) (input : List UInt8) : Option (ℕ × List UInt8) :=
  if nibble = 15 then (extraLength input).map fun (n, rest) => (n + 15, rest)
  else some (nibble, input)

/-- The copy of a sequence whose literals end at `input`. -/
def parseCopy (nibble : ℕ) (input : List UInt8) : Option (Copy × List UInt8) := do
  let field ← slice input 0 2
  let (length, rest) ← fieldLength nibble (input.drop 2)
  if h : 0 < leNat field ∧ leNat field < 65536 then
    some (⟨leNat field, length + 4, h.1, h.2⟩, rest)
  else none

/-- The first sequence. The last one of a block ends after its literals. -/
def parseSequence : List UInt8 → Option (Sequence × List UInt8)
  | [] => none
  | token :: rest => do
    let (count, rest) ← fieldLength (token.toNat / 16) rest
    let literals ← slice rest 0 count
    if rest.drop count = [] then some (⟨literals, none⟩, [])
    else do
      let (copy, rest) ← parseCopy (token.toNat % 16) (rest.drop count)
      some (⟨literals, some copy⟩, rest)

theorem extraLength_le {input rest : List UInt8} {n : ℕ} (h : extraLength input = some (n, rest)) :
    rest.length < input.length := by
  induction input generalizing n rest with
  | nil => cases h
  | cons b input ih =>
    rw [extraLength] at h
    split at h
    · obtain ⟨⟨m, tail⟩, hm, h⟩ := Option.map_eq_some_iff.mp h
      cases h
      exact Nat.lt_succ_of_lt (ih hm)
    · cases h
      exact Nat.lt_succ_self _

theorem fieldLength_le {nibble n : ℕ} {input rest : List UInt8}
    (h : fieldLength nibble input = some (n, rest)) : rest.length ≤ input.length := by
  unfold fieldLength at h
  split at h
  · obtain ⟨⟨m, tail⟩, hm, h⟩ := Option.map_eq_some_iff.mp h
    cases h
    exact Nat.le_of_lt (extraLength_le hm)
  · cases h
    exact Nat.le_refl _

theorem parseCopy_le {nibble : ℕ} {input rest : List UInt8} {copy : Copy}
    (h : parseCopy nibble input = some (copy, rest)) : rest.length ≤ input.length := by
  obtain ⟨field, -, h⟩ := Option.bind_eq_some_iff.mp h
  obtain ⟨⟨length, tail⟩, htail, h⟩ := Option.bind_eq_some_iff.mp h
  have hle := fieldLength_le htail
  rw [List.length_drop] at hle
  dsimp only at h
  split at h
  · cases h
    omega
  · cases h

theorem parseSequence_lt {input rest : List UInt8} {seq : Sequence}
    (h : parseSequence input = some (seq, rest)) : rest.length < input.length := by
  cases input with
  | nil => cases h
  | cons token input =>
    obtain ⟨⟨count, tail⟩, htail, h⟩ := Option.bind_eq_some_iff.mp h
    obtain ⟨literals, -, h⟩ := Option.bind_eq_some_iff.mp h
    have hle := fieldLength_le htail
    dsimp only at h
    split at h
    · cases h
      exact Nat.succ_pos _
    · obtain ⟨⟨copy, last⟩, hcopy, h⟩ := Option.bind_eq_some_iff.mp h
      cases h
      have hdrop := parseCopy_le hcopy
      rw [List.length_drop] at hdrop
      show last.length < (token :: input).length
      rw [List.length_cons]
      omega

/-- The sequences of a block. -/
def parse (input : List UInt8) : Option (List Sequence) :=
  match _h : parseSequence input with
  | none => none
  | some (seq, rest) =>
    if seq.copy = none then some [seq] else (parse rest).map (seq :: ·)
  termination_by input.length
  decreasing_by exact parseSequence_lt _h

/-- Append `length` bytes, each of them the one `offset` bytes before it. -/
def copyBack (dict : List UInt8) (offset : ℕ) : ℕ → List UInt8 → Option (List UInt8)
  | 0, out => some out
  | length + 1, out => do
    let history := dict ++ out
    if offset ≤ history.length then
      let b ← history[history.length - offset]?
      copyBack dict offset length (out ++ [b])
    else none

/-- What a sequence appends. -/
def emit (dict : List UInt8) (seq : Sequence) (out : List UInt8) : Option (List UInt8) :=
  match seq.copy with
  | none => some (out ++ seq.literals)
  | some copy => copyBack dict copy.offset copy.length (out ++ seq.literals)

/-- The output of the sequences, when it fits in `capacity` bytes. -/
def run (dict : List UInt8) (capacity : ℕ) : List Sequence → List UInt8 → Option (List UInt8)
  | [], out => some out
  | seq :: rest, out => do
    let out ← emit dict seq out
    if out.length ≤ capacity then run dict capacity rest out else none

/-- The bytes of a block after `dict`. -/
def decode (input : List UInt8) (capacity : ℕ) (dict : List UInt8) : Option (List UInt8) := do
  let seqs ← parse input
  run dict capacity seqs []

theorem run_length_le {dict out result : List UInt8} {capacity : ℕ} {seqs : List Sequence}
    (hout : out.length ≤ capacity) (h : run dict capacity seqs out = some result) :
    result.length ≤ capacity := by
  induction seqs generalizing out with
  | nil =>
    cases h
    exact hout
  | cons seq rest ih =>
    obtain ⟨next, -, h⟩ := Option.bind_eq_some_iff.mp h
    split at h
    · rename_i hnext
      exact ih hnext h
    · cases h

theorem decode_length_le {input dict result : List UInt8} {capacity : ℕ}
    (h : decode input capacity dict = some result) : result.length ≤ capacity := by
  obtain ⟨seqs, -, h⟩ := Option.bind_eq_some_iff.mp h
  exact run_length_le (Nat.zero_le _) h

/-- The last `n` bytes. -/
def recent (n : ℕ) (bytes : List UInt8) : List UInt8 := bytes.drop (bytes.length - n)

theorem recent_length (n : ℕ) (bytes : List UInt8) :
    (recent n bytes).length = min n bytes.length := by
  unfold recent
  rw [List.length_drop]
  omega

/-- A byte at most `n` back is one of the last `n`. -/
theorem recent_back {n d : ℕ} {bytes : List UInt8} (hn : d ≤ n) (hd : d ≤ bytes.length) :
    (recent n bytes)[(recent n bytes).length - d]? = bytes[bytes.length - d]? := by
  rw [recent_length]
  unfold recent
  rw [List.getElem?_drop]
  congr 1
  omega

/-- The byte `d` back is in the second list or further back in the first. -/
theorem append_back (xs ys : List UInt8) {d : ℕ} (hd : d ≤ (xs ++ ys).length) :
    (xs ++ ys)[(xs ++ ys).length - d]? =
      if d ≤ ys.length then ys[ys.length - d]? else xs[xs.length - (d - ys.length)]? := by
  rw [List.length_append] at hd ⊢
  split
  · rw [List.getElem?_append_right (by omega)]
    congr 1
    omega
  · rw [List.getElem?_append_left (by omega)]
    congr 1
    omega

theorem copyBack_recent {n offset : ℕ} (dict : List UInt8) (hn : offset ≤ n) (length : ℕ)
    (out : List UInt8) :
    copyBack (recent n dict) offset length out = copyBack dict offset length out := by
  induction length generalizing out with
  | zero => rfl
  | succ length ih =>
    rw [copyBack, copyBack]
    have hreach : offset ≤ (recent n dict ++ out).length ↔ offset ≤ (dict ++ out).length := by
      rw [List.length_append, List.length_append, recent_length]
      omega
    by_cases hoffset : offset ≤ (dict ++ out).length
    · have hbyte : (recent n dict ++ out)[(recent n dict ++ out).length - offset]? =
          (dict ++ out)[(dict ++ out).length - offset]? := by
        rw [append_back _ _ hoffset, append_back _ _ (hreach.mpr hoffset)]
        rw [List.length_append] at hoffset
        split
        · rfl
        · exact recent_back (by omega) (by omega)
      rw [if_pos (hreach.mpr hoffset), if_pos hoffset, hbyte]
      simp only [ih]
    · rw [if_neg (mt hreach.mp hoffset), if_neg hoffset]

theorem emit_recent {n : ℕ} (hn : 65535 ≤ n) (dict : List UInt8) (seq : Sequence)
    (out : List UInt8) : emit (recent n dict) seq out = emit dict seq out := by
  unfold emit
  cases hcopy : seq.copy with
  | none => rfl
  | some copy =>
    have hoffset := copy.offset_lt
    exact copyBack_recent dict (by omega) copy.length _

theorem run_recent {n : ℕ} (hn : 65535 ≤ n) (dict : List UInt8) (capacity : ℕ)
    (seqs : List Sequence) (out : List UInt8) :
    run (recent n dict) capacity seqs out = run dict capacity seqs out := by
  induction seqs generalizing out with
  | nil => rfl
  | cons seq rest ih =>
    rw [run, run, emit_recent hn]
    simp only [ih]

/-- A copy reaches at most 65535 bytes back, so a dictionary can be cut to as many. -/
theorem decode_recent {n : ℕ} (hn : 65535 ≤ n) (input : List UInt8) (capacity : ℕ)
    (dict : List UInt8) : decode input capacity (recent n dict) = decode input capacity dict := by
  unfold decode
  simp only [run_recent hn]

end Lamfold.Lz4Block
