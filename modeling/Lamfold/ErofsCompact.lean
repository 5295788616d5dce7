import Lamfold.ErofsIndex
import Lamfold.BitPack

/-!
A writer of the compact index, and that the reader gives back the pclusters it
was written from. The entries of the lclusters are packed in groups whose base
block address is the block before the group's first head, or, for big pclusters,
the running block address.
-/
namespace Lamfold.Erofs

open Effects Bytes BitPack

theorem code_shift {bits value : ℕ} (hv : value < 2 ^ 12) :
    (bits * 2 ^ 12 + value) >>> compactLobits = bits := by
  rw [Nat.shiftRight_eq_div_pow, compactLobits]
  omega

theorem code_mask {bits value : ℕ} (hv : value < 2 ^ 12) :
    (bits * 2 ^ 12 + value) &&& 0x0FFF = value := by
  have h := Nat.and_two_pow_sub_one_eq_mod (bits * 2 ^ 12 + value) 12
  rw [show 2 ^ 12 - 1 = 0x0FFF from rfl] at h
  rw [h]
  omega

theorem readBits_prefix {buf : List UInt8} {bitPos n : ℕ} (h : bitPos + n ≤ 8 * buf.length) :
    (List.range n).foldlM (fun v k => do
        let bp := bitPos + k
        let byte ← okOr buf[bp >>> 3]? (.corrupt "erofs: compact bit offset out of range")
        return v ||| ((byte.toNat >>> (bp &&& 7)) &&& 1) <<< k) 0 =
      (.ok (leNat buf / 2 ^ bitPos % 2 ^ n) : Outcome ℕ) := by
  induction n with
  | zero =>
    rw [Nat.pow_zero, Nat.mod_one]
    rfl
  | succ n ih =>
    have hlt : (bitPos + n) / 8 < buf.length := by omega
    have hshift : (bitPos + n) >>> 3 = (bitPos + n) / 8 := Nat.shiftRight_eq_div_pow _ 3
    have hand : (bitPos + n) &&& 7 = (bitPos + n) % 8 := Nat.and_two_pow_sub_one_eq_mod _ 3
    have hget : buf[(bitPos + n) >>> 3]? = some buf[(bitPos + n) / 8] := by
      rw [hshift]
      exact List.getElem?_eq_getElem hlt
    have hlow : leNat buf / 2 ^ bitPos % 2 ^ n < 2 ^ n := Nat.mod_lt _ (Nat.two_pow_pos n)
    have hstep : leNat buf / 2 ^ bitPos % 2 ^ n |||
        ((buf[(bitPos + n) / 8].toNat >>> ((bitPos + n) &&& 7)) &&& 1) <<< n =
          leNat buf / 2 ^ bitPos % 2 ^ (n + 1) := by
      rw [hand, Nat.and_one_is_mod, Nat.shiftRight_eq_div_pow, leNat_bit hlt, Nat.or_comm,
        ← Nat.shiftLeft_add_eq_or_of_lt hlow, Nat.shiftLeft_eq, Nat.mod_pow_succ,
        Nat.div_div_eq_div_mul, ← Nat.pow_add]
      ring
    rw [List.range_succ, List.foldlM_append, ih (by omega), ok_bind, List.foldlM_cons]
    simp only [hget, okOr, ok_bind, hstep]
    rfl

theorem readBitsLsb_eq {buf : List UInt8} {bitPos : ℕ}
    (h : bitPos + compactEncbits ≤ 8 * buf.length) :
    readBitsLsb buf bitPos = .ok (leNat buf / 2 ^ bitPos % 2 ^ compactEncbits) :=
  readBits_prefix h

/-- A group of two entries as a writer lays it out; `pad` fills an unused half. -/
def halfGroup (pad : ℕ) (codes : List ℕ) (base : ℕ) : List UInt8 :=
  leBytes 2 (codes.getD 0 pad) ++ leBytes 2 (codes.getD 1 pad) ++ leBytes 4 base

/-- A pack of up to sixteen entries as a writer lays it out. -/
def packGroup (codes : List ℕ) (base : ℕ) : List UInt8 :=
  leBytes 28 (pack compactEncbits codes) ++ leBytes 4 base

/-- What a group of codes must satisfy to be written. -/
def Codes (codes : List ℕ) : Prop := ∀ c ∈ codes, c < 2 ^ compactEncbits

/-- A layout of groups: `enc` writes a group that `unpack` reads back. -/
structure Layout (size per : ℕ) (unpack : List UInt8 → ℕ → Outcome (List ℕ))
    (enc : List ℕ → ℕ → List UInt8) : Prop where
  per_pos : 0 < per
  length : ∀ codes base, (enc codes base).length = size
  base : ∀ codes base, base < 2 ^ 32 → leNat ((enc codes base).drop (size - 4)) = base
  unpack : ∀ codes base, Codes codes → codes.length ≤ per →
    unpack (enc codes base) codes.length = .ok codes

theorem code_lt {c : ℕ} (h : c < 2 ^ compactEncbits) : c < 256 ^ 2 := by
  have hle : 2 ^ compactEncbits ≤ 256 ^ 2 := by decide
  omega

theorem halfGroup_layout (pad : ℕ) : Layout 8 2 halves (halfGroup pad) := by
  refine ⟨by decide, ?_, ?_, ?_⟩
  · intro codes base
    simp [halfGroup]
  · intro codes base hbase
    have hdrop : (halfGroup pad codes base).drop (8 - 4) = leBytes 4 base := by
      unfold halfGroup
      rw [List.drop_left' (by simp)]
    rw [hdrop, leNat_leBytes hbase]
  · intro codes base hcodes hlen
    have hfirst : (halfGroup pad codes base).take 2 = leBytes 2 (codes.getD 0 pad) := by
      unfold halfGroup
      rw [List.append_assoc, List.take_left' (by simp)]
    have hsecond : ((halfGroup pad codes base).drop 2).take 2 = leBytes 2 (codes.getD 1 pad) := by
      unfold halfGroup
      rw [List.append_assoc, List.drop_left' (by simp), List.take_left' (by simp)]
    unfold halves
    rw [hfirst, hsecond]
    match codes, hlen with
    | [], _ => rfl
    | [c], _ =>
      have hc := code_lt (hcodes c List.mem_cons_self)
      simp [leNat_leBytes hc]
    | [c, d], _ =>
      have hc := code_lt (hcodes c List.mem_cons_self)
      have hd := code_lt (hcodes d (List.mem_cons_of_mem c List.mem_cons_self))
      simp [leNat_leBytes hc, leNat_leBytes hd]

theorem pack_lt_pack {codes : List ℕ} (hcodes : Codes codes) (hlen : codes.length ≤ 16) :
    pack compactEncbits codes < 256 ^ 28 := by
  have hle : compactEncbits * codes.length ≤ 8 * 28 := by
    unfold compactEncbits
    omega
  calc pack compactEncbits codes < 2 ^ (compactEncbits * codes.length) := pack_lt hcodes
    _ ≤ 2 ^ (8 * 28) := Nat.pow_le_pow_right (by decide) hle
    _ = 256 ^ 28 := by rw [Nat.pow_mul]

theorem packGroup_code {codes : List ℕ} {base s : ℕ} (hcodes : Codes codes)
    (hlen : codes.length ≤ 16) (hs : s < codes.length) :
    readBitsLsb (packGroup codes base) (s * compactEncbits) = .ok codes[s] := by
  have hlen' : (packGroup codes base).length = 32 := by simp [packGroup]
  have hnum : leNat (packGroup codes base) =
      pack compactEncbits codes + 2 ^ (8 * 28) * leNat (leBytes 4 base) := by
    rw [packGroup, leNat_append, leNat_leBytes (pack_lt_pack hcodes hlen), leBytes_length,
      Nat.pow_mul]
  have hbits : s * compactEncbits + compactEncbits ≤ 8 * 28 := by
    unfold compactEncbits
    omega
  rw [readBitsLsb_eq (by omega), hnum, field_of_low hbits, pack_field hcodes hs]

theorem packGroup_layout : Layout 32 16 packed packGroup := by
  refine ⟨by decide, ?_, ?_, ?_⟩
  · intro codes base
    simp [packGroup]
  · intro codes base hbase
    have hdrop : (packGroup codes base).drop (32 - 4) = leBytes 4 base := by
      unfold packGroup
      rw [List.drop_left' (by simp)]
    rw [hdrop, leNat_leBytes hbase]
  · intro codes base hcodes hlen
    have hcode : ∀ s ∈ List.range codes.length,
        readBitsLsb (packGroup codes base) (s * compactEncbits) = .ok (codes.getD s 0) := by
      intro s hs
      have hs' : s < codes.length := List.mem_range.mp hs
      rw [packGroup_code hcodes hlen hs', List.getD_eq_getElem?_getD,
        List.getElem?_eq_getElem hs', Option.getD_some]
    have hmap : (List.range codes.length).map (fun s => codes.getD s 0) = codes := by
      refine List.ext_getElem (by simp) ?_
      intro i hi hi'
      simp [hi']
    rw [packed, mapM_eq_ok_map hcode, hmap]

/-- A zone of groups of at most `per` codes; group `rid` has the base `base rid`. -/
def encodeZone (per : ℕ) (hper : 0 < per) (enc : List ℕ → ℕ → List UInt8) (base : ℕ → ℕ)
    (rid : ℕ) (codes : List ℕ) : List UInt8 :=
  if codes = [] then []
  else enc (codes.take per) (base rid) ++ encodeZone per hper enc base (rid + 1) (codes.drop per)
  termination_by codes.length
  decreasing_by
    have hpos := List.length_pos_iff.mpr ‹_›
    rw [List.length_drop]
    omega

/-- The entries of codes whose code `i` is in group `region i`. -/
def entriesAt (region : ℕ → ℕ) (base : ℕ → ℕ) (i : ℕ) : List ℕ → List RawEntry
  | [] => []
  | code :: codes => .ofCode code (region i) (base (region i)) :: entriesAt region base (i + 1) codes

theorem entriesAt_append (region base : ℕ → ℕ) (i : ℕ) (xs ys : List ℕ) :
    entriesAt region base i (xs ++ ys) =
      entriesAt region base i xs ++ entriesAt region base (i + xs.length) ys := by
  induction xs generalizing i with
  | nil => rfl
  | cons x xs ih =>
    rw [List.cons_append, entriesAt, entriesAt, ih, List.cons_append, List.length_cons,
      Nat.add_right_comm, Nat.add_assoc]

theorem entriesAt_of_const {region base : ℕ → ℕ} {i rid : ℕ} {codes : List ℕ}
    (h : ∀ j < codes.length, region (i + j) = rid) :
    entriesAt region base i codes = codes.map (RawEntry.ofCode · rid (base rid)) := by
  induction codes generalizing i with
  | nil => rfl
  | cons code codes ih =>
    have hfirst := h 0 (by simp)
    have hrest : ∀ j < codes.length, region (i + 1 + j) = rid := by
      intro j hj
      have := h (j + 1) (by simpa using hj)
      rwa [show i + 1 + j = i + (j + 1) by omega]
    rw [entriesAt, ih hrest, List.map_cons]
    rw [Nat.add_zero] at hfirst
    rw [hfirst]

theorem divCeil_succ {n per : ℕ} (hper : 0 < per) (hn : 0 < n) :
    divCeil n per = divCeil (n - per) per + 1 := by
  unfold divCeil
  by_cases hle : per ≤ n
  · rw [show n + per - 1 = n - per + per - 1 + per by omega, Nat.add_div_right _ hper]
  · rw [show n - per = 0 by omega, show n + per - 1 = n - 1 + per by omega,
      Nat.add_div_right _ hper, Nat.div_eq_of_lt (show n - 1 < per by omega),
      Nat.div_eq_of_lt (show 0 + per - 1 < per by omega)]

theorem Codes.sublist {xs ys : List ℕ} (hys : Codes ys) (h : xs.Sublist ys) : Codes xs :=
  fun c hc => hys c (h.subset hc)

/-- A written zone is read back: its entries, and where it ends. -/
theorem readGroups_encodeZone {size per : ℕ} (what : String)
    {unpack : List UInt8 → ℕ → Outcome (List ℕ)} {enc : List ℕ → ℕ → List UInt8}
    (hlay : Layout size per unpack enc) {base : ℕ → ℕ} (region : ℕ → ℕ)
    (hbase : ∀ g, base g < 2 ^ 32) {codes : List ℕ} (hcodes : Codes codes) {buf : List UInt8}
    (pre post : List UInt8) (rid i : ℕ)
    (hregion : ∀ j < codes.length, region (i + j) = rid + j / per)
    (hbuf : buf = pre ++ encodeZone per hlay.per_pos enc base rid codes ++ post) :
    readGroups size per hlay.per_pos what unpack buf pre.length rid codes.length =
      .ok (entriesAt region base i codes,
        pre.length + (encodeZone per hlay.per_pos enc base rid codes).length,
        rid + divCeil codes.length per) := by
  induction hn : codes.length using Nat.strong_induction_on generalizing codes pre rid i with
  | _ n ih =>
  have hper := hlay.per_pos
  rw [readGroups]
  rw [encodeZone] at hbuf ⊢
  by_cases hnil : codes = []
  · subst hnil hn
    have hceil : divCeil 0 per = 0 := Nat.div_eq_of_lt (by omega)
    simp [entriesAt, hceil]
  have hpos : 0 < codes.length := List.length_pos_iff.mpr hnil
  rw [if_neg hnil] at hbuf ⊢
  rw [if_neg (by omega)]
  have hlen : (codes.take per).length = min per n := by rw [List.length_take, hn]
  have hgroup : slice buf pre.length size = some (enc (codes.take per) (base rid)) :=
    slice_of_append (by rw [hbuf, ← List.append_assoc, List.append_assoc (pre ++ _)]) rfl
      (hlay.length _ _).symm
  have hcodes₁ : Codes (codes.take per) := hcodes.sublist (List.take_sublist _ _)
  have hcodes₂ : Codes (codes.drop per) := hcodes.sublist (List.drop_sublist _ _)
  have hunpack : unpack (enc (codes.take per) (base rid)) (min per n) = .ok (codes.take per) := by
    rw [← hlen]
    exact hlay.unpack _ _ hcodes₁ (by omega)
  have hregion₁ : ∀ j < (codes.take per).length, region (i + j) = rid := by
    intro j hj
    rw [hregion j (by omega), Nat.div_eq_of_lt (by omega), Nat.add_zero]
  have hregion₂ : ∀ j < (codes.drop per).length,
      region (i + (codes.take per).length + j) = rid + 1 + j / per := by
    intro j hj
    rw [List.length_drop] at hj
    rw [hlen, show min per n = per by omega, Nat.add_assoc i, hregion (per + j) (by omega),
      Nat.add_div_left _ hper]
    omega
  have hsplit : entriesAt region base i codes =
      (codes.take per).map (RawEntry.ofCode · rid (base rid)) ++
        entriesAt region base (i + (codes.take per).length) (codes.drop per) := by
    rw [← entriesAt_of_const hregion₁, ← entriesAt_append, List.take_append_drop]
  have hrest := ih (codes.drop per).length (by rw [List.length_drop]; omega) hcodes₂
    (pre ++ enc (codes.take per) (base rid)) (rid + 1) (i + (codes.take per).length) hregion₂
    (by rw [hbuf]; simp only [List.append_assoc]) rfl
  rw [List.length_append, hlay.length, List.length_drop, hn] at hrest
  rw [hgroup]
  simp only [okOr, ok_bind, hlay.base _ _ (hbase rid), hunpack, hrest]
  rw [hsplit, divCeil_succ hper (show 0 < n by omega), List.length_append, hlay.length]
  simp only [pure, Except.pure, Except.ok.injEq, Prod.mk.injEq]
  exact ⟨trivial, by omega, by omega⟩

end Lamfold.Erofs
