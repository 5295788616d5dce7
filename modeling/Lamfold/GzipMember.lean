import Lamfold.Crc
import Lamfold.StreamBounds

/-!
gzip members, written and read back. A header with any of its optional fields, the
stream, and a trailer with checksum and size; what follows the member does not matter.
-/
namespace Lamfold.Streams

open Effects Bytes Loops

/-- The polynomial of CRC-32, reflected. -/
def crc32Poly : BitVec 32 := 0xEDB88320#32

theorem low_bit (c : UInt32) : c &&& 1 ≠ 0 ↔ c.toBitVec.getLsbD 0 = true := by
  rw [ne_eq, ← UInt32.toBitVec_inj, UInt32.toBitVec_and]
  change ¬c.toBitVec &&& 1#32 = 0#32 ↔ _
  rw [BitVec.and_one_eq_setWidth_ofBool_getLsbD]
  cases c.toBitVec.getLsbD 0 with
  | false => simp
  | true => simp

theorem shift_toBitVec (c : UInt32) :
    (if c &&& 1 ≠ 0 then (0xEDB88320 : UInt32) ^^^ (c >>> 1) else c >>> 1).toBitVec =
      Crc.shift crc32Poly c.toBitVec := by
  have hshift : (c >>> 1).toBitVec = c.toBitVec >>> 1 := by simp
  unfold Crc.shift
  by_cases hlow : c &&& 1 ≠ 0
  · rw [if_pos hlow, if_pos ((low_bit c).mp hlow), UInt32.toBitVec_xor, hshift]
    rfl
  · rw [if_neg hlow, if_neg (fun h => hlow ((low_bit c).mpr h)), hshift]

theorem crc32Entry_eq (i : ℕ) :
    (crc32Entry i).toBitVec = Crc.shifts crc32Poly 8 (BitVec.ofNat 32 i) := by
  have hfold : ∀ (turns : List ℕ) (c : UInt32),
      (turns.foldl (fun (c : UInt32) (_ : ℕ) =>
        if c &&& 1 ≠ 0 then (0xEDB88320 : UInt32) ^^^ (c >>> 1) else c >>> 1) c).toBitVec =
          Crc.shifts crc32Poly turns.length c.toBitVec := by
    intro turns
    induction turns with
    | nil => exact fun _ => rfl
    | cons k turns ih =>
      intro c
      rw [List.foldl_cons, ih, shift_toBitVec]
      rfl
  exact hfold (List.range 8) (UInt32.ofNat i)

theorem crc32_byte (c : UInt32) (b : UInt8) :
    (crc32Table.getD ((c ^^^ b.toUInt32) &&& 0xFF).toNat 0 ^^^ (c >>> 8)).toBitVec =
      Crc.addByte crc32Poly c.toBitVec b := by
  have hindex : ((c ^^^ b.toUInt32) &&& 0xFF).toNat = (c ^^^ b.toUInt32).toNat % 2 ^ 8 := by
    rw [UInt32.toNat_and]
    exact Nat.and_two_pow_sub_one_eq_mod _ 8
  have hlow : BitVec.ofNat 32 ((c ^^^ b.toUInt32).toNat % 2 ^ 8) =
      ((c.toBitVec ^^^ b.toBitVec.setWidth 32).setWidth 8).setWidth 32 := by
    refine BitVec.eq_of_toNat_eq ?_
    have hlt := Nat.mod_lt (c ^^^ b.toUInt32).toNat (Nat.two_pow_pos 8)
    rw [BitVec.toNat_ofNat, BitVec.toNat_setWidth, BitVec.toNat_setWidth]
    rfl
  have hentry : crc32Table.getD ((c ^^^ b.toUInt32).toNat % 2 ^ 8) 0 =
      crc32Entry ((c ^^^ b.toUInt32).toNat % 2 ^ 8) := by
    have hlt := Nat.mod_lt (c ^^^ b.toUInt32).toNat (Nat.two_pow_pos 8)
    rw [List.getD_eq_getElem?_getD, crc32Table, List.getElem?_map, List.getElem?_range hlt]
    rfl
  have hhigh : (c.toBitVec ^^^ b.toBitVec.setWidth 32) >>> 8 = c.toBitVec >>> 8 := by
    refine BitVec.eq_of_getLsbD_eq fun i _ => ?_
    simp
  have hshift : (c >>> 8).toBitVec = c.toBitVec >>> 8 := by simp
  unfold Crc.addByte
  rw [Crc.shifts_split, hhigh, UInt32.toBitVec_xor, hindex, hentry, crc32Entry_eq, hlow, hshift]

/-- The table computes the remainder bit by bit. -/
theorem crc32_eq_checksum (data : List UInt8) :
    (crc32 data).toBitVec = Crc.checksum crc32Poly data := by
  have hfold : ∀ c : UInt32,
      (data.foldl (fun (c : UInt32) (b : UInt8) =>
        crc32Table.getD ((c ^^^ b.toUInt32) &&& 0xFF).toNat 0 ^^^ (c >>> 8)) c).toBitVec =
          data.foldl (Crc.addByte crc32Poly) c.toBitVec := by
    induction data with
    | nil => exact fun _ => rfl
    | cons b data ih =>
      intro c
      rw [List.foldl_cons, List.foldl_cons, ih, crc32_byte]
  unfold crc32 Crc.checksum
  rw [UInt32.toBitVec_not, hfold]
  rfl

/-- The checksum of any data is the one that is computed bit by bit. -/
theorem crc32_bitwise (data : List UInt8) :
    (crc32 data).toBitVec = Crc.bitwise crc32Poly data := by
  rw [crc32_eq_checksum, Crc.checksum_eq_bitwise (by omega)]

/-- The optional fields of a header. -/
structure GzipFields where
  text : Bool
  extra : Option (List UInt8)
  extra_lt : ∀ bytes, extra = some bytes → bytes.length < 2 ^ 16
  name : Option (List UInt8)
  name_nul : ∀ bytes, name = some bytes → 0 ∉ bytes
  comment : Option (List UInt8)
  comment_nul : ∀ bytes, comment = some bytes → 0 ∉ bytes
  hcrc : Option (UInt8 × UInt8)

/-- The rest of a header: modification time, extra flags and system. -/
structure GzipFixed where
  mtime : List UInt8
  mtime_len : mtime.length = 4
  xfl : UInt8
  os : UInt8

/-- A flag byte with the given flags. -/
def flagByte (text hcrc extra name comment : Bool) : UInt8 :=
  (if text then 1 else 0) ||| (if hcrc then fhcrc else 0) ||| (if extra then fextra else 0) |||
    (if name then fname else 0) ||| (if comment then fcomment else 0)

namespace GzipFields

def flg (f : GzipFields) : UInt8 :=
  flagByte f.text f.hcrc.isSome f.extra.isSome f.name.isSome f.comment.isSome

/-- The extra field, behind its length. -/
def extraField : Option (List UInt8) → List UInt8
  | none => []
  | some bytes => leBytes 2 bytes.length ++ bytes

/-- A string and its NUL. -/
def stringField : Option (List UInt8) → List UInt8
  | none => []
  | some bytes => bytes ++ [0]

def hcrcField : Option (UInt8 × UInt8) → List UInt8
  | none => []
  | some (a, b) => [a, b]

/-- The first ten bytes of a header. -/
def head (f : GzipFields) (fixed : GzipFixed) : List UInt8 :=
  [0x1F, 0x8B, 8, f.flg] ++ fixed.mtime ++ [fixed.xfl, fixed.os]

/-- The header's bytes. -/
def encode (f : GzipFields) (fixed : GzipFixed) : List UInt8 :=
  f.head fixed ++ extraField f.extra ++ stringField f.name ++ stringField f.comment ++
    hcrcField f.hcrc

end GzipFields

/-- The trailer for a payload: its checksum, and its length in 32 bits. -/
def gzipTrailer (payload : List UInt8) : List UInt8 :=
  leBytes 4 (Crc.checksum crc32Poly payload).toNat ++ leBytes 4 (payload.length % 2 ^ 32)

/-- The flags are read back, and no reserved one is set. -/
theorem flagByte_and (text hcrc extra name comment : Bool) :
    flagByte text hcrc extra name comment &&& 0xE0 = 0 ∧
      (flagByte text hcrc extra name comment &&& fhcrc ≠ 0 ↔ hcrc = true) ∧
      (flagByte text hcrc extra name comment &&& fextra ≠ 0 ↔ extra = true) ∧
      (flagByte text hcrc extra name comment &&& fname ≠ 0 ↔ name = true) ∧
      (flagByte text hcrc extra name comment &&& fcomment ≠ 0 ↔ comment = true) := by
  revert text hcrc extra name comment
  decide

theorem skipExtra_field {flg : UInt8} {extra : Option (List UInt8)} (pre post : List UInt8)
    (hflg : flg &&& fextra ≠ 0 ↔ extra.isSome = true)
    (hlt : ∀ bytes, extra = some bytes → bytes.length < 2 ^ 16) :
    skipExtra (pre ++ GzipFields.extraField extra ++ post) flg pre.length =
      .ok (pre ++ GzipFields.extraField extra).length := by
  unfold skipExtra
  cases extra with
  | none =>
    rw [if_neg (fun h => Bool.noConfusion (hflg.mp h))]
    simp [GzipFields.extraField]
  | some bytes =>
    have hslice : slice (pre ++ GzipFields.extraField (some bytes) ++ post) pre.length 2 =
        some (leBytes 2 bytes.length) := by
      refine @slice_of_append _ _ pre (leBytes 2 bytes.length) (bytes ++ post) _ _ ?_ rfl rfl
      simp only [GzipFields.extraField, List.append_assoc]
    rw [if_pos (hflg.mpr rfl), hslice, okOr, ok_bind, leNat_leBytes (hlt bytes rfl)]
    simp [GzipFields.extraField]
    rfl

theorem findIdx?_nul {bytes : List UInt8} (h : 0 ∉ bytes) (post : List UInt8) :
    (bytes ++ 0 :: post).findIdx? (· == 0) = some bytes.length := by
  rw [List.findIdx?_append, List.findIdx?_eq_none_iff.mpr]
  · simp [List.findIdx?_cons]
  · intro b hb
    simp only [beq_eq_false_iff_ne]
    rintro rfl
    exact h hb

theorem skipString_field {flg flag : UInt8} {field : Option (List UInt8)} (pre post : List UInt8)
    (hflg : flg &&& flag ≠ 0 ↔ field.isSome = true)
    (hnul : ∀ bytes, field = some bytes → 0 ∉ bytes) :
    skipString (pre ++ GzipFields.stringField field ++ post) flg flag pre.length =
      .ok (pre ++ GzipFields.stringField field).length := by
  unfold skipString
  cases field with
  | none =>
    rw [if_neg (fun h => Bool.noConfusion (hflg.mp h))]
    simp [GzipFields.stringField]
  | some bytes =>
    have hrest : getFrom (pre ++ GzipFields.stringField (some bytes) ++ post) pre.length =
        some (bytes ++ 0 :: post) := by
      refine getFrom_eq_some.mpr ⟨by simp, ?_⟩
      simp [GzipFields.stringField, List.append_assoc]
    rw [if_pos (hflg.mpr rfl), hrest, Option.bind_some, findIdx?_nul (hnul bytes rfl), okOr, ok_bind]
    simp [GzipFields.stringField]
    rfl

theorem skipHcrc_field {flg : UInt8} {hcrc : Option (UInt8 × UInt8)} (pre : List UInt8)
    (hflg : flg &&& fhcrc ≠ 0 ↔ hcrc.isSome = true) :
    (if flg &&& fhcrc ≠ 0 then pre.length + 2 else pre.length) =
      (pre ++ GzipFields.hcrcField hcrc).length := by
  cases hcrc with
  | none =>
    rw [if_neg (fun h => Bool.noConfusion (hflg.mp h))]
    simp [GzipFields.hcrcField]
  | some ab =>
    rw [if_pos (hflg.mpr rfl)]
    simp [GzipFields.hcrcField]

namespace GzipFields

theorem flg_and (f : GzipFields) : f.flg &&& 0xE0 = 0 ∧
    (f.flg &&& fhcrc ≠ 0 ↔ f.hcrc.isSome = true) ∧
    (f.flg &&& fextra ≠ 0 ↔ f.extra.isSome = true) ∧
    (f.flg &&& fname ≠ 0 ↔ f.name.isSome = true) ∧
    (f.flg &&& fcomment ≠ 0 ↔ f.comment.isSome = true) :=
  flagByte_and _ _ _ _ _

theorem head_length (f : GzipFields) (fixed : GzipFixed) : (f.head fixed).length = 10 := by
  simp [head, fixed.mtime_len]

end GzipFields

section Inflate

variable {δ ρ : Type}

/-- The inflater gets from a state, in steps of one chunk, to the end of the stream that
`rest` starts with: it gives `payload` and uses `used` bytes. -/
inductive Inflates (d : Decoders δ ρ) : δ → List UInt8 → List UInt8 → ℕ → Prop
  | last {state : δ} {rest : List UInt8} {r : InflateResult δ}
      (hstep : d.inflate state rest chunkLen = r) (hstatus : r.status = .streamEnd) :
      Inflates d state rest (r.chunk.take r.written) r.consumed
  | step {state : δ} {rest more : List UInt8} {used : ℕ} {r : InflateResult δ}
      (hstep : d.inflate state rest chunkLen = r) (hstatus : r.status = .more)
      (hprogress : r.consumed > 0 ∨ r.written > 0)
      (htail : Inflates d r.state (rest.drop r.consumed) more used) :
      Inflates d state rest (r.chunk.take r.written ++ more) (r.consumed + used)

variable {d : Decoders δ ρ} {input : List UInt8} {maxOut : ℕ}

theorem pushCapped_eq {out chunk : List UInt8} (hroom : out.length + chunk.length ≤ maxOut)
    (hreserve : d.reserve out.length chunk.length = true) :
    pushCapped d out chunk maxOut = .ok (out ++ chunk) := by
  unfold pushCapped
  rw [if_neg (Nat.not_lt.mpr hroom), if_pos hreserve]

/-- What a turn gives, when there is room for the bytes of its step. -/
theorem inflateTurn_step {state : δ} {pos : ℕ} {out : List UInt8} {r : InflateResult δ}
    {b : (List UInt8 × ℕ) ⊕ Inflating δ} (hpos : pos ≤ input.length)
    (hstep : d.inflate state (input.drop pos) chunkLen = r)
    (hroom : (out ++ r.chunk.take r.written).length ≤ maxOut)
    (hreserve : ∀ a b, a + b ≤ (out ++ r.chunk.take r.written).length → d.reserve a b = true)
    (hend : (r.status = .streamEnd ∧ b = .inl (out ++ r.chunk.take r.written, pos + r.consumed)) ∨
      (r.status = .more ∧ (r.consumed > 0 ∨ r.written > 0) ∧
        b = .inr ⟨r.state, pos + r.consumed, out ++ r.chunk.take r.written⟩)) :
    inflateTurn d input maxOut ⟨state, pos, out⟩ = .ok b := by
  have hrest : getFrom input pos = some (input.drop pos) := getFrom_eq_some.mpr ⟨hpos, rfl⟩
  have hwritten : r.written ≤ r.chunk.length := by
    subst hstep
    rw [d.inflate_chunk]
    exact d.written_le _ _ _
  have hchunk : slice r.chunk 0 r.written = some (r.chunk.take r.written) :=
    slice_eq_some.mpr ⟨by omega, rfl⟩
  rw [List.length_append] at hroom hreserve
  unfold inflateTurn
  rw [hrest]
  simp only [unwrap, ok_bind]
  rw [hstep, hchunk]
  simp only [ok_bind]
  rw [pushCapped_eq hroom (hreserve _ _ (le_refl _)), ok_bind]
  rcases hend with ⟨hstatus, rfl⟩ | ⟨hstatus, hprogress, rfl⟩
  · rw [hstatus]
    rfl
  · rw [hstatus]
    dsimp only
    rw [if_pos hprogress]
    rfl

/-- The loop gives what the inflater does, and stops where the stream ends. -/
theorem run_inflates {state : δ} {rest payload : List UInt8} {used : ℕ}
    (h : Inflates d state rest payload used) {pos : ℕ} {out : List UInt8}
    (hrest : input.drop pos = rest) (hpos : pos ≤ input.length)
    (hroom : (out ++ payload).length ≤ maxOut)
    (hreserve : ∀ a b, a + b ≤ (out ++ payload).length → d.reserve a b = true) :
    run (inflateTurn d input maxOut) (inflateLeft input maxOut) (inflateTurn_lowers d input maxOut)
      ⟨state, pos, out⟩ = .ok (out ++ payload, pos + used) := by
  induction h generalizing pos out with
  | last hstep hstatus =>
    subst hrest
    exact run_of_leave _ (inflateTurn_step hpos hstep hroom hreserve (.inl ⟨hstatus, rfl⟩))
  | @step state rest more used r hstep hstatus hprogress _ ih =>
    subst hrest
    have hconsumed : pos + r.consumed ≤ input.length := by
      have hle := d.consumed_le state (input.drop pos) chunkLen
      rw [hstep, List.length_drop] at hle
      omega
    rw [← List.append_assoc] at hroom hreserve ⊢
    have hle : (out ++ r.chunk.take r.written).length ≤
        (out ++ r.chunk.take r.written ++ more).length := by
      simp only [List.length_append]
      omega
    have hturn := inflateTurn_step hpos hstep (hle.trans hroom)
      (fun a b hab => hreserve a b (hab.trans hle)) (.inr ⟨hstatus, hprogress, rfl⟩)
    rw [run_of_next _ hturn, ih (List.drop_drop ..).symm hconsumed hroom hreserve, Nat.add_assoc]

/-- The optional fields of a header are skipped one after another, up to its end. -/
theorem GzipFields.skips (f : GzipFields) (fixed : GzipFixed) (rest : List UInt8) :
    ∃ p₁ p₂ p₃, skipExtra (f.encode fixed ++ rest) f.flg 10 = .ok p₁ ∧
      skipString (f.encode fixed ++ rest) f.flg fname p₁ = .ok p₂ ∧
      skipString (f.encode fixed ++ rest) f.flg fcomment p₂ = .ok p₃ ∧
      (if f.flg &&& fhcrc ≠ 0 then p₃ + 2 else p₃) = (f.encode fixed).length := by
  obtain ⟨-, hhcrc, hextra, hname, hcomment⟩ := f.flg_and
  -- each field is behind those before it
  have hsplit₁ : f.encode fixed ++ rest = f.head fixed ++ GzipFields.extraField f.extra ++
      (GzipFields.stringField f.name ++ GzipFields.stringField f.comment ++
        GzipFields.hcrcField f.hcrc ++ rest) := by
    simp only [GzipFields.encode, List.append_assoc]
  have hsplit₂ : f.encode fixed ++ rest = f.head fixed ++ GzipFields.extraField f.extra ++
      GzipFields.stringField f.name ++
        (GzipFields.stringField f.comment ++ GzipFields.hcrcField f.hcrc ++ rest) := by
    simp only [GzipFields.encode, List.append_assoc]
  have hsplit₃ : f.encode fixed ++ rest = f.head fixed ++ GzipFields.extraField f.extra ++
      GzipFields.stringField f.name ++ GzipFields.stringField f.comment ++
        (GzipFields.hcrcField f.hcrc ++ rest) := by
    simp only [GzipFields.encode, List.append_assoc]
  have hpos₁ := skipExtra_field (f.head fixed)
    (GzipFields.stringField f.name ++ GzipFields.stringField f.comment ++
      GzipFields.hcrcField f.hcrc ++ rest) hextra f.extra_lt
  have hpos₂ := skipString_field (f.head fixed ++ GzipFields.extraField f.extra)
    (GzipFields.stringField f.comment ++ GzipFields.hcrcField f.hcrc ++ rest) hname f.name_nul
  have hpos₃ := skipString_field
    (f.head fixed ++ GzipFields.extraField f.extra ++ GzipFields.stringField f.name)
    (GzipFields.hcrcField f.hcrc ++ rest) hcomment f.comment_nul
  have hpos₄ := skipHcrc_field (f.head fixed ++ GzipFields.extraField f.extra ++
    GzipFields.stringField f.name ++ GzipFields.stringField f.comment) hhcrc
  rw [← hsplit₁, f.head_length fixed] at hpos₁
  rw [← hsplit₂] at hpos₂
  rw [← hsplit₃] at hpos₃
  exact ⟨_, _, _, hpos₁, hpos₂, hpos₃, hpos₄⟩

theorem gzipTrailer_crc (out : List UInt8) :
    leNat ((gzipTrailer out).take 4) = (crc32 out).toNat := by
  rw [gzipTrailer, List.take_left' (leBytes_length 4 _), leNat_leBytes (BitVec.isLt _),
    ← crc32_eq_checksum]
  rfl

theorem gzipTrailer_size (out : List UInt8) :
    leNat ((gzipTrailer out).drop 4) = out.length % 2 ^ 32 := by
  rw [gzipTrailer, List.drop_left' (leBytes_length 4 _)]
  exact leNat_leBytes (Nat.mod_lt _ (by norm_num))

/-- A member whose stream is inflated, and followed by its trailer. -/
theorem gzip_encode (f : GzipFields) (fixed : GzipFixed) {rest out : List UInt8} {used : ℕ}
    (hinflate : inflateRawStream d rest maxOut = .ok (out, used))
    (htrailer : slice rest used 8 = some (gzipTrailer out)) :
    gzip d (f.encode fixed ++ rest) maxOut = .ok (out, (f.encode fixed).length + used + 8) := by
  have hreserved := f.flg_and.1
  have hlen : ¬(f.encode fixed ++ rest).length < 10 := by
    simp only [GzipFields.encode, List.length_append, f.head_length fixed]
    omega
  have hid : slice (f.encode fixed ++ rest) 0 3 = some [0x1F, 0x8B, 8] := by
    refine slice_eq_some.mpr ⟨by omega, ?_⟩
    simp [GzipFields.encode, GzipFields.head]
  have hflg : (f.encode fixed ++ rest)[3]? = some f.flg := by
    simp [GzipFields.encode, GzipFields.head]
  have hvalid : ¬(([0x1F, 0x8B, 8] : List UInt8) ≠ [0x1F, 0x8B, 8] ∨ f.flg &&& 0xE0 ≠ 0) :=
    not_or.mpr ⟨not_not.mpr rfl, not_not.mpr hreserved⟩
  obtain ⟨p₁, p₂, p₃, hpos₁, hpos₂, hpos₃, hend⟩ := f.skips fixed rest
  have hbody : getFrom (f.encode fixed ++ rest) (f.encode fixed).length = some rest :=
    getFrom_eq_some.mpr ⟨by simp, List.drop_left⟩
  have htrailer' : slice (f.encode fixed ++ rest) ((f.encode fixed).length + used) 8 =
      some (gzipTrailer out) := by
    rw [slice_append_right, htrailer]
  unfold gzip
  rw [if_neg hlen, hid, hflg]
  simp only [unwrap, ok_bind]
  rw [if_neg hvalid, hpos₁, ok_bind, hpos₂, ok_bind, hpos₃, ok_bind, hend, hbody, okOr, ok_bind,
    hinflate, ok_bind]
  rw [htrailer', okOr, ok_bind, if_neg (not_or.mpr ⟨not_not.mpr (gzipTrailer_crc out),
    not_not.mpr (gzipTrailer_size out)⟩)]
  rfl

/-- A member that is decoded ends in the trailer of what it gives. -/
theorem gzip_trailer {out : List UInt8} {used : ℕ} (h : gzip d input maxOut = .ok (out, used)) :
    8 ≤ used ∧ slice input (used - 8) 8 = some (gzipTrailer out) := by
  unfold gzip at h
  split at h
  · exact absurd h (fail_ne_ok _ _)
  obtain ⟨id, -, h⟩ := bind_eq_ok.mp h
  obtain ⟨flg, -, h⟩ := bind_eq_ok.mp h
  split at h
  · exact absurd h (fail_ne_ok _ _)
  obtain ⟨p₁, -, h⟩ := bind_eq_ok.mp h
  obtain ⟨p₂, -, h⟩ := bind_eq_ok.mp h
  obtain ⟨p₃, -, h⟩ := bind_eq_ok.mp h
  obtain ⟨body, -, h⟩ := bind_eq_ok.mp h
  obtain ⟨⟨out', used'⟩, -, h⟩ := bind_eq_ok.mp h
  obtain ⟨trailer, htrailer, h⟩ := bind_eq_ok.mp h
  obtain ⟨hsums, h⟩ := ite_error_eq_ok.mp h
  obtain ⟨rfl, rfl⟩ := Prod.mk.inj (Except.ok.inj h)
  obtain ⟨hcrc, hsize⟩ := not_or.mp hsums
  have htrailer := okOr_eq_ok.mp htrailer
  have hlen := slice_length htrailer
  have hlow : (trailer.take 4).length = 4 := by
    rw [List.length_take]
    omega
  have hhigh : (trailer.drop 4).length = 4 := by
    rw [List.length_drop]
    omega
  have hfields : trailer = gzipTrailer out' := by
    unfold gzipTrailer
    rw [← crc32_eq_checksum, ← not_not.mp hsize]
    calc trailer = trailer.take 4 ++ trailer.drop 4 := (List.take_append_drop 4 trailer).symm
      _ = leBytes 4 (leNat (trailer.take 4)) ++ leBytes 4 (leNat (trailer.drop 4)) := by
          rw [leBytes_of_length hlow, leBytes_of_length hhigh]
      _ = leBytes 4 (crc32 out').toNat ++ leBytes 4 (leNat (trailer.drop 4)) := by
          rw [not_not.mp hcrc]
  refine ⟨Nat.le_add_left 8 _, ?_⟩
  rw [Nat.add_sub_cancel, htrailer, hfields]

/-- A member gives its payload and its own length, whatever follows it, when the inflater
gives the payload and stops at the end of the stream. Whatever is decoded, the eight
bytes before the end are the checksum and the size of the output. -/
theorem decodeStream_gzip (d : Decoders δ ρ) (features : Features) :
    (features.deflate = true →
      ∀ (f : GzipFields) (fixed : GzipFixed) (payload stream t : List UInt8) (maxOut : ℕ),
        (∀ t, Inflates d d.inflateInit (stream ++ t) payload stream.length) →
        payload.length ≤ maxOut → (∀ a b, a + b ≤ payload.length → d.reserve a b = true) →
        decodeStream d features .gzip (f.encode fixed ++ stream ++ gzipTrailer payload ++ t) maxOut =
          .ok (payload, (f.encode fixed ++ stream ++ gzipTrailer payload).length)) ∧
      ∀ (input out : List UInt8) (maxOut used : ℕ),
        decodeStream d features .gzip input maxOut = .ok (out, used) →
        8 ≤ used ∧ slice input (used - 8) 8 = some (gzipTrailer out) := by
  refine ⟨fun hdeflate f fixed payload stream t maxOut hstream hroom hreserve => ?_,
    fun input out maxOut used h => ?_⟩
  · have hinflate : inflateRawStream d (stream ++ (gzipTrailer payload ++ t)) maxOut =
        .ok (payload, stream.length) := by
      have hrun : inflateRawStream d (stream ++ (gzipTrailer payload ++ t)) maxOut =
          .ok ([] ++ payload, 0 + stream.length) :=
        run_inflates (hstream (gzipTrailer payload ++ t)) rfl (Nat.zero_le _) hroom hreserve
      rwa [Nat.zero_add] at hrun
    have htrailer : slice (stream ++ (gzipTrailer payload ++ t)) stream.length 8 =
        some (gzipTrailer payload) := by
      apply slice_of_append (List.append_assoc ..).symm rfl
      simp [gzipTrailer]
    have hmember := gzip_encode f fixed hinflate htrailer
    have hlength : (f.encode fixed ++ stream ++ gzipTrailer payload).length =
        (f.encode fixed).length + stream.length + 8 := by
      simp [gzipTrailer, Nat.add_assoc]
    unfold decodeStream
    rw [if_pos hdeflate, hlength, List.append_assoc, List.append_assoc]
    exact hmember
  · unfold decodeStream at h
    dsimp only at h
    split at h
    · exact gzip_trailer h
    · exact absurd h (fail_ne_ok _ _)

end Inflate

/-- A stored block of one byte, as the inflater reads it in one step. -/
def storedByte (input : List UInt8) (n : ℕ) : InflateResult Unit :=
  if 6 ≤ input.length ∧ input.take 5 = [1, 1, 0, 0xFE, 0xFF] ∧ 0 < n then
    ⟨(), 6, 1, (input.drop 5).take 1 ++ List.replicate (n - 1) 0, .streamEnd⟩
  else ⟨(), 0, 0, List.replicate n 0, .failed⟩

theorem storedByte_bounds (input : List UInt8) (n : ℕ) :
    (storedByte input n).consumed ≤ input.length ∧ (storedByte input n).written ≤ n ∧
      (storedByte input n).chunk.length = n := by
  unfold storedByte
  split
  · rename_i h
    obtain ⟨hlen, -, hn⟩ := h
    refine ⟨hlen, hn, ?_⟩
    simp only [List.length_append, List.length_take, List.length_drop, List.length_replicate]
    omega
  · exact ⟨Nat.zero_le _, Nat.zero_le _, List.length_replicate⟩

/-- An inflater of stored blocks of one byte. -/
def storedOnly : Decoders Unit Unit where
  __ := lz4Only
  inflate _ := storedByte
  consumed_le _ input n := (storedByte_bounds input n).1
  written_le _ input n := (storedByte_bounds input n).2.1
  inflate_chunk _ input n := (storedByte_bounds input n).2.2

/-- A stored block with the byte `a`. -/
def storedA : List UInt8 := [1, 1, 0, 0xFE, 0xFF, 0x61]

theorem storedA_inflates (t : List UInt8) :
    Inflates storedOnly storedOnly.inflateInit (storedA ++ t) [0x61] storedA.length := by
  have hstep : storedOnly.inflate () (storedA ++ t) chunkLen =
      ⟨(), 6, 1, 0x61 :: List.replicate (chunkLen - 1) 0, .streamEnd⟩ := by
    change storedByte (storedA ++ t) chunkLen = _
    unfold storedByte
    rw [if_pos ⟨by simp [storedA], rfl, Nat.two_pow_pos 16⟩]
    rfl
  exact Inflates.last hstep rfl

theorem extra_lt_one : ∀ bytes : List UInt8, some [7] = some bytes → bytes.length < 2 ^ 16 := by
  rintro bytes ⟨⟩
  decide

theorem nul_of_letters {b : UInt8} (hb : b = 0x61 ∨ b = 0x62) :
    ∀ bytes, some [b] = some bytes → 0 ∉ bytes := by
  rintro bytes ⟨⟩
  rcases hb with rfl | rfl <;> decide

/-- A header with all the optional fields. -/
def allFields : GzipFields where
  text := true
  extra := some [7]
  extra_lt := extra_lt_one
  name := some [0x61]
  name_nul := nul_of_letters (.inl rfl)
  comment := some [0x62]
  comment_nul := nul_of_letters (.inr rfl)
  hcrc := some (1, 2)

/-- A time, and Unix. -/
def someTime : GzipFixed where
  mtime := [1, 2, 3, 4]
  mtime_len := rfl
  xfl := 0
  os := 3

/-- The member of the byte `a`, with all the optional fields, before one byte more. -/
theorem decodeStream_gzip_storedA :
    decodeStream storedOnly allFeatures .gzip
      (allFields.encode someTime ++ storedA ++ gzipTrailer [0x61] ++ [0]) 1 =
        .ok ([0x61], (allFields.encode someTime ++ storedA ++ gzipTrailer [0x61]).length) :=
  (decodeStream_gzip storedOnly allFeatures).1 rfl allFields someTime [0x61] storedA [0] 1
    storedA_inflates (Nat.le_refl 1) fun _ _ _ => rfl

end Lamfold.Streams
