import Lamfold.UdfAddresses

/-!
UDF directories, written and read back. File Identifier Descriptors stand one after
another, each with parts of any length and padded to four bytes; the scan finds each of
them, and lists those that are neither deleted nor the parent's.
-/
namespace Lamfold.Udf

open Effects Bytes Utf8

/-- An identifier that stands for a string: a compression id, then the characters in one
byte each or as UTF-16. -/
inductive Encodes : List ℕ → List UInt8 → Prop
  | latin1 {chars : List ℕ} (hchars : ∀ c ∈ chars, c < 256) :
      Encodes chars (8 :: chars.map UInt8.ofNat)
  | utf16 {chars : List ℕ} (hchars : ∀ c ∈ chars, IsScalar c) :
      Encodes chars (16 :: (chars.flatMap unitsOf).flatMap (beBytes 2))

/-- A descriptor as it is written. The identifier of one that is to be listed stands for
`chars`; the others may have any. -/
structure FidRecord where
  tagRest : List UInt8
  tagRest_len : tagRest.length = 14
  version : List UInt8
  version_len : version.length = 2
  fc : UInt8
  icbLen : List UInt8
  icbLen_len : icbLen.length = 4
  icbLb : ℕ
  icbLb_lt : icbLb < 2 ^ 32
  icbRest : List UInt8
  icbRest_len : icbRest.length = 8
  iu : List UInt8
  iu_lt : iu.length < 2 ^ 16
  fi : List UInt8
  fi_lt : fi.length < 2 ^ 8
  chars : List ℕ
  encodes : fc &&& 0x08 = 0 → fc &&& 0x04 = 0 → Encodes chars fi
  padding : List UInt8
  padding_len : padding.length = (38 + iu.length + fi.length + 3) / 4 * 4 -
    (38 + iu.length + fi.length)

namespace FidRecord

/-- The bytes before the file characteristics: the descriptor tag and the version. -/
def beforeFc (r : FidRecord) : List UInt8 := leBytes 2 tagFid ++ r.tagRest ++ r.version

/-- The bytes before the block of the ICB. -/
def beforeIcb (r : FidRecord) : List UInt8 :=
  r.beforeFc ++ [r.fc, UInt8.ofNat r.fi.length] ++ r.icbLen

/-- The bytes before the length of the implementation use. -/
def beforeIu (r : FidRecord) : List UInt8 := r.beforeIcb ++ leBytes 4 r.icbLb ++ r.icbRest

/-- The bytes before the identifier. -/
def beforeFi (r : FidRecord) : List UInt8 := r.beforeIu ++ leBytes 2 r.iu.length ++ r.iu

/-- The descriptor's bytes. -/
def encode (r : FidRecord) : List UInt8 := r.beforeFi ++ r.fi ++ r.padding

/-- The descriptor as the scan sees it. -/
def fid (r : FidRecord) : Fid :=
  ⟨r.fc, UInt8.ofNat r.fi.length, r.icbLb, r.iu.length, r.fi⟩

/-- Neither the parent's nor deleted. -/
def Listed (r : FidRecord) : Bool := r.fc &&& 0x08 = 0 ∧ r.fc &&& 0x04 = 0

/-- The name, in UTF-8. -/
def name (r : FidRecord) : Str := r.chars.flatMap ofScalar

theorem lFi_toNat (r : FidRecord) : (UInt8.ofNat r.fi.length).toNat = r.fi.length := by
  have hlt := r.fi_lt
  rw [UInt8.toNat_ofNat']
  omega

theorem beforeFc_length (r : FidRecord) : r.beforeFc.length = 18 := by
  simp [beforeFc, r.tagRest_len, r.version_len]

theorem beforeIcb_length (r : FidRecord) : r.beforeIcb.length = 24 := by
  simp [beforeIcb, r.beforeFc_length, r.icbLen_len]

theorem beforeIu_length (r : FidRecord) : r.beforeIu.length = 36 := by
  simp [beforeIu, r.beforeIcb_length, r.icbRest_len]

theorem beforeFi_length (r : FidRecord) : r.beforeFi.length = 38 + r.iu.length := by
  simp only [beforeFi, List.length_append, leBytes_length, r.beforeIu_length]

theorem encode_length (r : FidRecord) : r.encode.length = r.fid.size := by
  have hpad := r.padding_len
  change _ = (38 + r.iu.length + (UInt8.ofNat r.fi.length).toNat + 3) / 4 * 4
  rw [r.lFi_toNat]
  simp only [encode, List.length_append, r.beforeFi_length]
  omega

end FidRecord

theorem decodeUdfName_encodes {chars : List ℕ} {fi : List UInt8} (h : Encodes chars fi) :
    decodeUdfName fi = .ok (chars.flatMap ofScalar) := by
  cases h with
  | latin1 hchars =>
    rw [decodeUdfName, List.flatMap_map]
    refine congrArg Except.ok (List.flatMap_congr fun c hc => ?_)
    rw [UInt8.toNat_ofNat', Nat.mod_eq_of_lt (hchars c hc)]
  | utf16 hchars =>
    have hpieces : ∀ bytes ∈ (chars.flatMap unitsOf).map (beBytes 2), bytes.length = 2 := by
      intro bytes hbytes
      obtain ⟨u, -, rfl⟩ := List.mem_map.mp hbytes
      exact beBytes_length 2 u
    have hunits : ((chars.flatMap unitsOf).map (beBytes 2)).map beNat = chars.flatMap unitsOf := by
      rw [List.map_map]
      refine (List.map_congr_left fun u hu => ?_).trans (List.map_id _)
      obtain ⟨c, hc, hu⟩ := List.mem_flatMap.mp hu
      exact beNat_beBytes (unitsOf_lt (hchars c hc) hu)
    rw [decodeUdfName, List.flatMap_def, chunksExact_flatten (by omega) hpieces, hunits,
      decodeUtf16_unitsOf hchars]
    rfl

theorem fidAt_encode (r : FidRecord) (pre post : List UInt8) :
    FidAt (pre ++ r.encode ++ post) pre.length r.fid := by
  -- what follows each of the fields that are read
  have hfi : pre ++ r.encode ++ post = pre ++ r.beforeFi ++ r.fi ++ (r.padding ++ post) := by
    simp only [FidRecord.encode, List.append_assoc]
  have hiu : pre ++ r.encode ++ post = pre ++ r.beforeIu ++ leBytes 2 r.iu.length ++
      (r.iu ++ r.fi ++ r.padding ++ post) := by
    simp only [hfi, FidRecord.beforeFi, List.append_assoc]
  have hicb : pre ++ r.encode ++ post = pre ++ r.beforeIcb ++ leBytes 4 r.icbLb ++
      (r.icbRest ++ leBytes 2 r.iu.length ++ r.iu ++ r.fi ++ r.padding ++ post) := by
    simp only [hiu, FidRecord.beforeIu, List.append_assoc]
  have hfc : pre ++ r.encode ++ post = pre ++ r.beforeFc ++ r.fc ::
      (UInt8.ofNat r.fi.length :: (r.icbLen ++ leBytes 4 r.icbLb ++ r.icbRest ++
        leBytes 2 r.iu.length ++ r.iu ++ r.fi ++ r.padding ++ post)) := by
    simp only [hicb, FidRecord.beforeIcb, List.append_assoc, List.cons_append, List.nil_append]
  have hlFi : pre ++ r.encode ++ post = (pre ++ r.beforeFc ++ [r.fc]) ++
      UInt8.ofNat r.fi.length :: (r.icbLen ++ leBytes 4 r.icbLb ++ r.icbRest ++
        leBytes 2 r.iu.length ++ r.iu ++ r.fi ++ r.padding ++ post) := by
    simp only [hfc, List.append_assoc, List.cons_append, List.nil_append]
  have htag : pre ++ r.encode ++ post = pre ++ leBytes 2 tagFid ++ (r.tagRest ++ r.version ++
      r.fc :: (UInt8.ofNat r.fi.length :: (r.icbLen ++ leBytes 4 r.icbLb ++ r.icbRest ++
        leBytes 2 r.iu.length ++ r.iu ++ r.fi ++ r.padding ++ post))) := by
    simp only [hfc, FidRecord.beforeFc, List.append_assoc]
  refine ⟨?_, ?_, ?_, ?_, ?_, ?_, ?_⟩
  · rw [List.length_append, List.length_append, r.encode_length]
    unfold Fid.size FidRecord.fid
    omega
  · exact leAt_of_append htag rfl (by decide)
  · exact getElem?_of_append hfc (by rw [List.length_append, r.beforeFc_length])
  · refine getElem?_of_append hlFi ?_
    rw [List.length_append, List.length_append, r.beforeFc_length, List.length_singleton]
  · exact leAt_of_append hicb (by rw [List.length_append, r.beforeIcb_length]) r.icbLb_lt
  · exact leAt_of_append hiu (by rw [List.length_append, r.beforeIu_length]) r.iu_lt
  · refine slice_of_append hfi ?_ r.lFi_toNat
    rw [List.length_append, r.beforeFi_length]
    exact Nat.add_assoc ..

theorem fidEntry_fid {partitionStart : ℕ} {r : FidRecord}
    (hsum : r.Listed → partitionStart + r.icbLb < 2 ^ 32) :
    fidEntry partitionStart r.fc r.fi r.icbLb =
      .ok (if r.Listed then [(r.name, partitionStart + r.icbLb)] else []) := by
  unfold fidEntry
  by_cases hlisted : r.fc &&& 0x08 = 0 ∧ r.fc &&& 0x04 = 0
  · have hlist : r.Listed = true := decide_eq_true hlisted
    rw [if_pos hlisted, if_pos hlist, decodeUdfName_encodes (r.encodes hlisted.1 hlisted.2),
      ok_bind, u32, fits_eq_ok.mpr ⟨hsum hlist, rfl⟩]
    rfl
  · have hskip : ¬r.Listed = true := by simpa [FidRecord.Listed] using hlisted
    rw [if_neg hlisted, if_neg hskip]

/-- The scan from a descriptor on lists it and those after it. -/
theorem parseFidsFrom_encode {partitionStart : ℕ} {records : List FidRecord} {pre : List UInt8}
    (hsum : ∀ r ∈ records, r.Listed → partitionStart + r.icbLb < 2 ^ 32) :
    parseFidsFrom partitionStart (pre ++ records.flatMap FidRecord.encode) pre.length =
      .ok ((records.filter FidRecord.Listed).map
        fun r => (r.name, partitionStart + r.icbLb)) := by
  induction records generalizing pre with
  | nil =>
    rw [List.flatMap_nil, List.append_nil, parseFidsFrom, if_neg (by omega)]
    rfl
  | cons r records ih =>
    have hrest := @ih (pre ++ r.encode) fun r' hr' => hsum r' (List.mem_cons_of_mem _ hr')
    have hfid := fidAt_encode r pre (records.flatMap FidRecord.encode)
    rw [List.length_append, r.encode_length] at hrest
    rw [List.flatMap_cons, ← List.append_assoc, parseFidsFrom_at hfid, hrest]
    have hentry := @fidEntry_fid partitionStart r (hsum r List.mem_cons_self)
    change (do
      let entry ← fidEntry partitionStart r.fc r.fi r.icbLb
      let rest ← Except.ok _
      return entry ++ rest) = _
    rw [hentry, ok_bind, ok_bind]
    by_cases hlisted : r.Listed
    · rw [if_pos hlisted, List.filter_cons_of_pos hlisted]
      rfl
    · rw [if_neg hlisted, List.filter_cons_of_neg hlisted]
      rfl

/-- A directory of descriptors is read back: name and File Entry block of each that is
listed, in order. -/
theorem parseFids_encode (partitionStart : ℕ) (records : List FidRecord)
    (hsum : ∀ r ∈ records, r.Listed → partitionStart + r.icbLb < 2 ^ 32) :
    parseFids (records.flatMap FidRecord.encode) partitionStart =
      .ok ((records.filter FidRecord.Listed).map
        fun r => (r.name, partitionStart + r.icbLb)) := by
  have hall := @parseFidsFrom_encode partitionStart records [] hsum
  rwa [List.nil_append] at hall

theorem icbLen_zeros : ([0, 0, 0, 0] : List UInt8).length = 4 := rfl

/-- A deleted descriptor, of which the identifier is no name. -/
def deletedFid : FidRecord where
  tagRest := List.replicate 14 0
  tagRest_len := rfl
  version := [1, 0]
  version_len := rfl
  fc := 4
  icbLen := [0, 0, 0, 0]
  icbLen_len := icbLen_zeros
  icbLb := 2 ^ 32 - 1
  icbLb_lt := by decide
  icbRest := List.replicate 8 0
  icbRest_len := rfl
  iu := [9, 9, 9]
  iu_lt := by decide
  fi := [7, 7]
  fi_lt := by decide
  chars := []
  encodes := by
    intro _ h
    exact absurd h (by decide)
  padding := [0]
  padding_len := by decide

/-- The descriptor of a file with one character, outside the basic plane, as its name. -/
def pairFid : FidRecord where
  __ := deletedFid
  fc := 0
  icbLb := 4
  icbLb_lt := by decide
  iu := []
  iu_lt := by decide
  fi := [16, 0xD8, 0x3D, 0xDE, 0]
  fi_lt := by decide
  chars := [0x1F600]
  encodes := fun _ _ => .utf16 (by simp [IsScalar])
  padding := [0]
  padding_len := by decide

theorem parseFids_encode_pair :
    parseFids ([deletedFid, pairFid].flatMap FidRecord.encode) 257 =
      .ok [([0xF0, 0x9F, 0x98, 0x80], 261)] := by
  refine parseFids_encode 257 [deletedFid, pairFid] ?_
  intro r hr hlisted
  simp only [List.mem_cons, List.not_mem_nil, or_false] at hr
  rcases hr with rfl | rfl
  · cases hlisted
  · decide

end Lamfold.Udf
