import Lamfold.Answers

/-!
Reads that walk the extents of a file in order. A window may start in one extent
and go on in the next ones; what is left of it after the last one is not read.
-/
namespace Lamfold

open Effects

variable {ε : Type} (len : ε → ℕ)

/-- The bytes that extents hold together. -/
def totalLen (es : List ε) : ℕ := (es.map len).sum

/-- Up to `want` bytes from `off` on: the next extent starts at file offset
`filePos`, and `out` was read so far. `read e intra n` is `n` bytes of `e` from its
byte `intra` on. -/
def readExtents {m : Type → Type} [Monad m] [MonadLiftT Outcome m]
    (read : ε → ℕ → ℕ → m (List UInt8)) (off want : ℕ) :
    List ε → ℕ → List UInt8 → m (List UInt8)
  | [], _, out => pure out
  | e :: rest, filePos, out =>
    if out.length ≥ want then pure out
    else do
      let extEnd ← u64 (filePos + len e)
      let cur ← u64 (off + out.length)
      if cur ≥ extEnd then readExtents read off want rest extEnd out
      else do
        let intra ← minus cur filePos
        let bytes ← read e intra (min (len e - intra) (want - out.length))
        readExtents read off want rest extEnd (out ++ bytes)

variable {len} {read : ε → ℕ → ℕ → Outcome (List UInt8)}

@[simp] theorem totalLen_nil : totalLen len [] = 0 := rfl

@[simp] theorem totalLen_cons (e : ε) (es : List ε) :
    totalLen len (e :: es) = len e + totalLen len es := rfl

/-- The next extent starts at or before the byte to be read next, unless the window
is full. -/
def InStep (off want filePos done : ℕ) : Prop := filePos ≤ off + done ∨ want ≤ done

theorem readExtents_length
    (hread : ∀ e intra n bytes, read e intra n = .ok bytes → bytes.length = n) {off want : ℕ}
    {es : List ε} {filePos : ℕ} {out data : List UInt8}
    (hstep : InStep off want filePos out.length)
    (h : readExtents len read off want es filePos out = .ok data) :
    data.length = max out.length (min want (filePos + totalLen len es - off)) := by
  induction es generalizing filePos out with
  | nil =>
    obtain rfl := Except.ok.inj h
    rw [totalLen_nil]
    rcases hstep with hstep | hstep
    · omega
    · omega
  | cons e es ih =>
    rw [totalLen_cons]
    rw [readExtents] at h
    split at h
    · obtain rfl := Except.ok.inj h
      omega
    rename_i hout
    obtain ⟨extEnd, hext, h⟩ := bind_eq_ok.mp h
    obtain ⟨-, rfl⟩ := fits_eq_ok.mp hext
    obtain ⟨cur, hcur, h⟩ := bind_eq_ok.mp h
    obtain ⟨-, rfl⟩ := fits_eq_ok.mp hcur
    split at h
    · rename_i hge
      rw [ih (.inl hge) h, Nat.add_assoc]
    · rename_i hlt
      obtain ⟨intra, hintra, h⟩ := bind_eq_ok.mp h
      obtain ⟨hle, rfl⟩ := minus_eq_ok.mp hintra
      obtain ⟨bytes, hbytes, h⟩ := bind_eq_ok.mp h
      have hlen := hread _ _ _ _ hbytes
      have hnext : InStep off want (filePos + len e) (out ++ bytes).length := by
        unfold InStep
        rw [List.length_append, hlen]
        omega
      rw [ih hnext h, List.length_append, hlen]
      omega

/-- The walk is answered when reads inside an extent are and no offset overflows. -/
theorem answered_readExtents
    (hlen : ∀ e intra n bytes, read e intra n = .ok bytes → bytes.length = n) {off want : ℕ}
    {es : List ε} {filePos : ℕ} {out : List UInt8}
    (hread : ∀ e ∈ es, ∀ intra n, intra + n ≤ len e → Answered (read e intra n))
    (hsum : filePos + totalLen len es < 2 ^ 64) (hwant : off + want < 2 ^ 64)
    (hstep : InStep off want filePos out.length) :
    Answered (readExtents len read off want es filePos out) := by
  induction es generalizing filePos out with
  | nil => trivial
  | cons e es ih =>
    rw [totalLen_cons] at hsum
    have hread' : ∀ e' ∈ es, ∀ intra n, intra + n ≤ len e' → Answered (read e' intra n) :=
      fun e' he' => hread e' (List.mem_cons_of_mem _ he')
    rw [readExtents]
    refine Answered.ite (fun _ => trivial) fun hout => ?_
    have hstart : filePos ≤ off + out.length := hstep.resolve_right (by omega)
    refine Answered.bind (answered_fits.mpr (by omega)) ?_
    intro extEnd hext
    obtain ⟨-, rfl⟩ := fits_eq_ok.mp hext
    refine Answered.bind (answered_fits.mpr (by omega)) ?_
    intro cur hcur
    obtain ⟨-, rfl⟩ := fits_eq_ok.mp hcur
    refine Answered.ite (fun hge => ih hread' (by omega) (.inl hge)) fun hlt => ?_
    refine Answered.bind (answered_minus.mpr hstart) ?_
    intro intra hintra
    obtain ⟨-, rfl⟩ := minus_eq_ok.mp hintra
    refine Answered.bind (hread e List.mem_cons_self _ _ (by omega)) ?_
    intro bytes hbytes
    refine ih hread' (by omega) ?_
    unfold InStep
    rw [List.length_append, hlen _ _ _ _ hbytes]
    omega

/-- The walk reports no errors but those of the reads. -/
theorem raises_readExtents {P : FoldError → Prop} (hread : ∀ e intra n, RaisesOnly P (read e intra n))
    {off want : ℕ} {es : List ε} {filePos : ℕ} {out : List UInt8} :
    RaisesOnly P (readExtents len read off want es filePos out) := by
  induction es generalizing filePos out with
  | nil => exact .ok _
  | cons e es ih =>
    refine RaisesOnly.ite (fun _ => .ok _) fun _ => ?_
    refine RaisesOnly.bind .fits fun extEnd _ => ?_
    refine RaisesOnly.bind .fits fun cur _ => ?_
    refine RaisesOnly.ite (fun _ => ih) fun _ => ?_
    refine RaisesOnly.bind .minus fun intra _ => ?_
    exact RaisesOnly.bind (hread e _ _) fun bytes _ => ih

/-- Bytes `i..i + n` of a piece whose byte `k` is `byte k`, where the source has it. -/
def bytesOf (byte : ℕ → Option UInt8) (i n : ℕ) : List (Option UInt8) :=
  (List.range' i n).map byte

/-- The bytes of extents one after another. -/
def extentBytes (len : ε → ℕ) (byte : ε → ℕ → Option UInt8) (es : List ε) :
    List (Option UInt8) :=
  es.flatMap fun e => bytesOf (byte e) 0 (len e)

@[simp] theorem bytesOf_length (byte : ℕ → Option UInt8) (i n : ℕ) :
    (bytesOf byte i n).length = n := by simp [bytesOf]

@[simp] theorem extentBytes_length (byte : ε → ℕ → Option UInt8) (es : List ε) :
    (extentBytes len byte es).length = totalLen len es := by
  simp [extentBytes, totalLen]

theorem bytesOf_window (byte : ℕ → Option UInt8) (i n m : ℕ) :
    ((bytesOf byte 0 m).drop i).take n = bytesOf byte i (min (m - i) n) := by
  unfold bytesOf
  rw [← List.map_drop, ← List.map_take, List.drop_range', Nat.mul_one, Nat.zero_add]
  rcases Nat.le_total (m - i) n with hle | hge
  · rw [List.take_range'_of_length_le hle, Nat.min_eq_left hle]
  · rw [List.take_range'_of_length_ge hge, Nat.min_eq_right hge]

theorem bytesOf_of_slice {xs ys : List UInt8} {byte : ℕ → Option UInt8} {off i n : ℕ}
    (hbyte : ∀ k < n, byte (i + k) = xs[off + k]?) (h : Bytes.slice xs off n = some ys) :
    ys.map some = bytesOf byte i n := by
  have hlen := Bytes.slice_length h
  refine List.ext_getElem (by simp [hlen]) ?_
  intro k hk _
  rw [List.length_map, hlen] at hk
  have hitem := Bytes.slice_getElem? h hk
  rw [List.getElem?_eq_getElem (by omega)] at hitem
  simp [bytesOf, hbyte k hk, ← hitem]

/-- A window of the bytes of extents that starts in the first one goes on in the others. -/
theorem extentBytes_window {byte : ε → ℕ → Option UInt8} {e : ε} {es : List ε} {intra n : ℕ}
    (hintra : intra ≤ len e) :
    ((extentBytes len byte (e :: es)).drop intra).take n =
      bytesOf (byte e) intra (min (len e - intra) n) ++
        (extentBytes len byte es).take (n - (len e - intra)) := by
  unfold extentBytes
  rw [List.flatMap_cons, List.drop_append_of_le_length (by simpa using hintra), List.take_append,
    bytesOf_window, List.length_drop, bytesOf_length]

theorem readExtents_content {byte : ε → ℕ → Option UInt8}
    (hread : ∀ e intra n bytes, read e intra n = .ok bytes →
      bytes.map some = bytesOf (byte e) intra n) {off want : ℕ} {es : List ε} {filePos : ℕ}
    {out data : List UInt8} (hstep : InStep off want filePos out.length)
    (h : readExtents len read off want es filePos out = .ok data) :
    data.map some = out.map some ++
      ((extentBytes len byte es).drop (off + out.length - filePos)).take (want - out.length) := by
  induction es generalizing filePos out with
  | nil =>
    obtain rfl := Except.ok.inj h
    simp [extentBytes]
  | cons e es ih =>
    rw [readExtents] at h
    split at h
    · rename_i hfull
      obtain rfl := Except.ok.inj h
      rw [Nat.sub_eq_zero_of_le hfull, List.take_zero, List.append_nil]
    rename_i hout
    have hstart : filePos ≤ off + out.length := hstep.resolve_right (by omega)
    obtain ⟨extEnd, hext, h⟩ := bind_eq_ok.mp h
    obtain ⟨-, rfl⟩ := fits_eq_ok.mp hext
    obtain ⟨cur, hcur, h⟩ := bind_eq_ok.mp h
    obtain ⟨-, rfl⟩ := fits_eq_ok.mp hcur
    split at h
    · rename_i hge
      rw [ih (.inl hge) h]
      have hskip : off + out.length - filePos =
          len e + (off + out.length - (filePos + len e)) := by omega
      have hrest : (extentBytes len byte (e :: es)).drop (len e) = extentBytes len byte es := by
        unfold extentBytes
        rw [List.flatMap_cons, List.drop_left' (bytesOf_length ..)]
      rw [hskip, ← List.drop_drop, hrest]
    · rename_i hlt
      obtain ⟨intra, hintra, h⟩ := bind_eq_ok.mp h
      obtain ⟨hle, rfl⟩ := minus_eq_ok.mp hintra
      obtain ⟨bytes, hbytes, h⟩ := bind_eq_ok.mp h
      have hpiece := hread _ _ _ _ hbytes
      have hlen : bytes.length = min (len e - (off + out.length - filePos)) (want - out.length) := by
        rw [← List.length_map some, hpiece, bytesOf_length]
      have hnext : InStep off want (filePos + len e) (out ++ bytes).length := by
        unfold InStep
        rw [List.length_append, hlen]
        omega
      rw [ih hnext h, List.map_append, hpiece, List.append_assoc,
        extentBytes_window (by omega : off + out.length - filePos ≤ len e), List.length_append, hlen]
      congr 2
      -- either the extent ends and the next one is read from its start, or the window does
      rcases Nat.le_total (len e - (off + out.length - filePos)) (want - out.length) with hends | hends
      · rw [Nat.min_eq_left hends]
        have hzero : off + (out.length + (len e - (off + out.length - filePos))) -
            (filePos + len e) = 0 := by omega
        rw [hzero, List.drop_zero, Nat.sub_add_eq]
      · rw [Nat.min_eq_right hends, Nat.sub_eq_zero_of_le hends]
        have hzero : want - (out.length + (want - out.length)) = 0 := by omega
        rw [hzero, List.take_zero, List.take_zero]

/-- A read into `buf` wrote `n` bytes: exactly those of `content` from `off` on that fit. -/
structure Writes (content : List (Option UInt8)) (off : ℕ) (buf : List UInt8) (n : ℕ)
    (window : List UInt8) : Prop where
  count_le : n ≤ buf.length
  bytes : (window.take n).map some = (content.drop off).take buf.length
  rest : window.drop n = buf.drop n

theorem Writes.of_data {content : List (Option UInt8)} {off : ℕ} {buf data : List UInt8}
    (h : data.map some = (content.drop off).take buf.length) :
    Writes content off buf data.length (Bytes.overwrite buf 0 data) := by
  have hle : data.length ≤ buf.length := by
    rw [← List.length_map some, h]
    exact List.length_take_le ..
  refine ⟨hle, ?_, ?_⟩
  · simpa [Bytes.overwrite] using h
  · simp [Bytes.overwrite]

theorem Writes.past {content : List (Option UInt8)} {off : ℕ} (h : content.length ≤ off)
    (buf : List UInt8) : Writes content off buf 0 buf := by
  refine ⟨Nat.zero_le _, ?_, rfl⟩
  rw [List.drop_eq_nil_of_le h]
  simp

theorem readExtents_past {off want : ℕ} {es : List ε} {filePos : ℕ}
    (hpast : filePos + totalLen len es ≤ off) (hoff : off < 2 ^ 64) :
    readExtents len read off want es filePos [] = .ok [] := by
  induction es generalizing filePos with
  | nil => rfl
  | cons e es ih =>
    rw [totalLen_cons] at hpast
    rw [readExtents]
    split
    · rfl
    · refine bind_eq_ok.mpr ⟨_, fits_eq_ok.mpr ⟨by omega, rfl⟩, ?_⟩
      refine bind_eq_ok.mpr ⟨_, fits_eq_ok.mpr ⟨by rw [List.length_nil]; omega, rfl⟩, ?_⟩
      rw [if_pos (by rw [List.length_nil]; omega)]
      exact ih (by omega)

/-- Any part of the chunk can be read from the extent, which is as long. -/
structure Supplies (len : ε → ℕ) (read : ε → ℕ → ℕ → Outcome (List UInt8)) (e : ε)
    (chunk : List UInt8) : Prop where
  length : chunk.length = len e
  read : ∀ {intra n}, intra + n ≤ chunk.length → read e intra n = .ok ((chunk.drop intra).take n)

theorem Supplies.totalLen {es : List ε} {chunks : List (List UInt8)}
    (h : List.Forall₂ (Supplies len read) es chunks) : totalLen len es = chunks.flatten.length := by
  induction h with
  | nil => rfl
  | cons hfirst _ ih => rw [totalLen_cons, List.flatten_cons, List.length_append, hfirst.length, ih]

/-- Extents that supply their chunks give the window of what the chunks are together. -/
theorem readExtents_supplied {es : List ε} {chunks : List (List UInt8)}
    (h : List.Forall₂ (Supplies len read) es chunks) {off want filePos : ℕ} {out : List UInt8}
    (hends : filePos + chunks.flatten.length < 2 ^ 64) (hwant : off + want < 2 ^ 64)
    (hstep : InStep off want filePos out.length) :
    readExtents len read off want es filePos out = .ok (out ++
      (chunks.flatten.drop (off + out.length - filePos)).take (want - out.length)) := by
  induction h generalizing filePos out with
  | nil => simp [readExtents, pure, Except.pure]
  | @cons e chunk es chunks hfirst _ ih =>
    rw [List.flatten_cons, List.length_append, hfirst.length] at hends
    rw [readExtents]
    by_cases hfull : want ≤ out.length
    · rw [if_pos hfull, Nat.sub_eq_zero_of_le hfull, List.take_zero, List.append_nil]
      rfl
    have hstart : filePos ≤ off + out.length := hstep.resolve_right hfull
    have hend : u64 (filePos + len e) = .ok _ := fits_eq_ok.mpr ⟨by omega, rfl⟩
    have hcur : u64 (off + out.length) = .ok _ := fits_eq_ok.mpr ⟨by omega, rfl⟩
    have hintra : minus (off + out.length) filePos = .ok _ := minus_eq_ok.mpr ⟨hstart, rfl⟩
    rw [if_neg hfull, hend, lift_ok_bind, hcur, lift_ok_bind, List.flatten_cons, List.drop_append,
      hfirst.length, Nat.sub_sub]
    by_cases hpast : off + out.length ≥ filePos + len e
    · -- the window starts behind this extent
      have hnone : chunk.drop (off + out.length - filePos) = [] :=
        List.drop_of_length_le (by rw [hfirst.length]; omega)
      rw [if_pos hpast, ih (by omega) (.inl hpast), hnone, List.nil_append]
    · obtain ⟨n, hn⟩ : ∃ n, n = min (len e - (off + out.length - filePos)) (want - out.length) :=
        ⟨_, rfl⟩
      have hroom : (chunk.drop (off + out.length - filePos)).length =
          len e - (off + out.length - filePos) := by rw [List.length_drop, hfirst.length]
      have hin : off + out.length - filePos + n ≤ chunk.length := by
        rw [hfirst.length]
        omega
      have hpiece : (chunk.drop (off + out.length - filePos)).take n =
          (chunk.drop (off + out.length - filePos)).take (want - out.length) := by
        rw [hn, ← hroom, Nat.min_comm, ← List.take_take, List.take_length]
      have hdone : (out ++ (chunk.drop (off + out.length - filePos)).take n).length =
          out.length + n := by
        rw [List.length_append, List.length_take, hroom]
        omega
      have hnext : InStep off want (filePos + len e) (out.length + n) := by
        unfold InStep
        omega
      have hfresh : off + out.length - (filePos + len e) = 0 := by omega
      rw [← hdone] at hnext
      rw [if_neg hpast, hintra, lift_ok_bind, ← hn, hfirst.read hin, ok_bind, ih (by omega) hnext,
        hdone, hpiece, hfresh, List.drop_zero, List.take_append, hroom, List.append_assoc]
      -- either the extent ends and the next one is read from its start, or the window does
      rcases Nat.le_total (len e - (off + out.length - filePos)) (want - out.length) with hle | hle
      · have hzero : off + (out.length + n) - (filePos + len e) = 0 := by omega
        have hleft : want - (out.length + n) =
            want - out.length - (len e - (off + out.length - filePos)) := by omega
        rw [hzero, hleft, List.drop_zero]
      · have hleft : want - (out.length + n) = 0 := by omega
        rw [hleft, Nat.sub_eq_zero_of_le hle, List.take_zero, List.take_zero]

end Lamfold
