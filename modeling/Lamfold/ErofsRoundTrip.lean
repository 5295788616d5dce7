import Lamfold.ErofsCompact
import Mathlib.Data.Nat.Bitwise

/-!
The pclusters of a compressed file, the lcluster entries they are written as,
and the compact index made of these entries. Reading a written index gives the
pclusters back: the same starts, types, block addresses and block counts.
-/
namespace Lamfold.Erofs

open Effects Bytes

def LcType.bits : LcType → ℕ
  | .plain => 0
  | .head1 => 1
  | .nonhead => 2
  | .head2 => 3

def code (ty : LcType) (value : ℕ) : ℕ := ty.bits * 2 ^ 12 + value

theorem ofCode_code (ty : LcType) {value : ℕ} (hv : value < 2 ^ 12) (region base : ℕ) :
    RawEntry.ofCode (code ty value) region base = ⟨ty, value, region, base⟩ := by
  have hty : LcType.ofBits ty.bits = ty := by cases ty <;> rfl
  rw [RawEntry.ofCode, code, code_shift hv, code_mask hv, hty]

theorem code_lt_enc (ty : LcType) {value : ℕ} (hv : value < 2 ^ 12) :
    code ty value < 2 ^ compactEncbits := by
  have hty : ty.bits < 4 := by cases ty <;> decide
  unfold code compactEncbits
  omega

/-- The values of the NONHEAD lclusters of a pcluster: with big pclusters the
first one counts its blocks and no other has the flag. -/
def CountsBlocks (big : Bool) (blocks : ℕ) : List ℕ → Prop
  | [] => blocks = 1
  | v :: vs =>
      if big then
        1 ≤ blocks ∧ blocks ≤ 2047 ∧ v = compactCblkcntFlag + blocks ∧
          ∀ u ∈ vs, u < compactCblkcntFlag
      else blocks = 1

/-- A pcluster: the lcluster it opens, by type and offset, the blocks it occupies
and the values of the NONHEAD lclusters after it. -/
structure Pcluster (lcsize : ℕ) (big : Bool) where
  ty : LcType
  clusterofs : ℕ
  blocks : ℕ
  nonheads : List ℕ
  ty_ne : ty ≠ .nonhead
  clusterofs_lt : clusterofs < lcsize
  nonheads_lt : ∀ v ∈ nonheads, v < 2 ^ 12
  counts : CountsBlocks big blocks nonheads

variable {lcsize : ℕ} {big : Bool}

namespace Pcluster

def codes (p : Pcluster lcsize big) : List ℕ :=
  code p.ty p.clusterofs :: p.nonheads.map (code .nonhead)

def lclusters (p : Pcluster lcsize big) : ℕ := 1 + p.nonheads.length

theorem codes_length (p : Pcluster lcsize big) : p.codes.length = p.lclusters := by
  simp [codes, lclusters, Nat.add_comm]

theorem codes_ok (p : Pcluster lcsize big) (hlc : lcsize ≤ 2 ^ 12) : Codes p.codes := by
  intro c hc
  rcases List.mem_cons.mp hc with rfl | hc
  · exact code_lt_enc _ (Nat.lt_of_lt_of_le p.clusterofs_lt hlc)
  · obtain ⟨v, hv, rfl⟩ := List.mem_map.mp hc
    exact code_lt_enc _ (p.nonheads_lt v hv)

end Pcluster

/-- The pclusters from lcluster `i` on, back to back from block `addr` on. -/
def headsOf (i addr : ℕ) : List (Pcluster lcsize big) → List Head
  | [] => []
  | p :: ps =>
      ⟨i * lcsize + p.clusterofs, p.ty, addr, p.blocks⟩ ::
        headsOf (i + p.lclusters) (addr + p.blocks) ps

/-- The lclusters before the packs: 4 bytes each up to a 32-byte boundary. -/
def initialLclusters (ebase nLc : ℕ) : ℕ := min ((32 - ebase % 32) % 32 / 4) nLc

/-- The lclusters in packs. -/
def packedLclusters (ebase nLc : ℕ) : ℕ := (nLc - initialLclusters ebase nLc) / 16 * 16

/-- The group of lcluster `i`. -/
def regionOf (ebase nLc i : ℕ) : ℕ :=
  let c4i := initialLclusters ebase nLc
  let c2b := packedLclusters ebase nLc
  if i < c4i then i / 2
  else if i < c4i + c2b then divCeil c4i 2 + (i - c4i) / 16
  else divCeil c4i 2 + divCeil c2b 16 + (i - c4i - c2b) / 2

theorem packEntries_pos : 0 < 16 := by decide

def encodeIndex (ebase pad : ℕ) (base : ℕ → ℕ) (codes : List ℕ) : List UInt8 :=
  let c4i := initialLclusters ebase codes.length
  let c2b := packedLclusters ebase codes.length
  encodeZone 2 Nat.two_pos (halfGroup pad) base 0 (codes.take c4i) ++
    encodeZone 16 packEntries_pos packGroup base (divCeil c4i 2) ((codes.drop c4i).take c2b) ++
    encodeZone 2 Nat.two_pos (halfGroup pad) base (divCeil c4i 2 + divCeil c2b 16)
      (codes.drop (c4i + c2b))

theorem zones_eq (ebase nLc : ℕ) :
    zones ebase nLc = (initialLclusters ebase nLc, packedLclusters ebase nLc,
      nLc - initialLclusters ebase nLc - packedLclusters ebase nLc) := by
  have hand : ((32 - ebase % 32) / 4) &&& 7 = (32 - ebase % 32) / 4 % 8 :=
    Nat.and_two_pow_sub_one_eq_mod _ 3
  have hboundary : (32 - ebase % 32) / 4 % 8 = (32 - ebase % 32) % 32 / 4 := by omega
  unfold zones packedLclusters initialLclusters
  rw [hand, hboundary]

theorem regionOf_mono (ebase nLc : ℕ) : Monotone (regionOf ebase nLc) := by
  intro i j hij
  unfold regionOf divCeil
  dsimp only
  split_ifs <;> omega

/-- The base addresses when pclusters are one block each: a head that opens its
group is one block after the group's base. `last` is the group of the head
before, and groups without a head have any base. -/
def BasesBefore (region base : ℕ → ℕ) :
    (last : Option ℕ) → (i addr : ℕ) → List (Pcluster lcsize big) → Prop
  | _, _, _, [] => True
  | last, i, addr, p :: ps =>
      (last ≠ some (region i) → base (region i) + 1 = addr) ∧
        BasesBefore region base (some (region i)) (i + p.lclusters) (addr + p.blocks) ps

/-- The base addresses the format asks for. With big pclusters that is the
running block address, of which the reader uses only the first. -/
def Bases (region base : ℕ → ℕ) (addr : ℕ) (ps : List (Pcluster lcsize big)) : Prop :=
  if big then base 0 = addr else BasesBefore region base none 0 addr ps

/-- The loop of `resolve_compact_heads` over the entries from lcluster `i` on. -/
def resolveEntries (lcsize : ℕ) (big : Bool) (st : Resolving) (i : ℕ) (raw : List RawEntry) :
    Outcome Resolving :=
  (raw.zipIdx i).foldlM (fun st (e, i) => resolveEntry lcsize big st e i) st

theorem resolveEntries_cons (st : Resolving) (i : ℕ) (e : RawEntry) (raw : List RawEntry) :
    resolveEntries lcsize big st i (e :: raw) =
      (resolveEntry lcsize big st e i >>= fun st => resolveEntries lcsize big st (i + 1) raw) := by
  unfold resolveEntries
  rw [List.zipIdx_cons, List.foldlM_cons]

theorem resolveEntries_append (st : Resolving) (i : ℕ) (xs ys : List RawEntry) :
    resolveEntries lcsize big st i (xs ++ ys) =
      (resolveEntries lcsize big st i xs >>= fun st =>
        resolveEntries lcsize big st (i + xs.length) ys) := by
  unfold resolveEntries
  rw [List.zipIdx_append, List.foldlM_append]

theorem entriesAt_length (region base : ℕ → ℕ) (i : ℕ) (codes : List ℕ) :
    (entriesAt region base i codes).length = codes.length := by
  induction codes generalizing i with
  | nil => rfl
  | cons c codes ih => simp [entriesAt, ih]

/-- NONHEADs without a flagged count change nothing. -/
theorem resolveEntries_nonheads (region base : ℕ → ℕ) {vs : List ℕ} (hvs : ∀ v ∈ vs, v < 2 ^ 12)
    (hflag : big = true → ∀ v ∈ vs, v < compactCblkcntFlag) (st : Resolving) (i : ℕ) :
    resolveEntries lcsize big st i (entriesAt region base i (vs.map (code .nonhead))) =
      .ok st := by
  induction vs generalizing i with
  | nil => rfl
  | cons v vs ih =>
    have hv : v < 2 ^ 12 := hvs v List.mem_cons_self
    have hand : ¬(big = true ∧ v &&& compactCblkcntFlag ≠ 0) := by
      intro ⟨hbig, hne⟩
      have hlt : v < 2 ^ 11 := hflag hbig v List.mem_cons_self
      apply hne
      rw [compactCblkcntFlag, show 0x0800 = 2 ^ 11 from rfl, Nat.and_two_pow,
        Nat.testBit_lt_two_pow hlt]
      rfl
    have hstep : resolveEntry lcsize big st ⟨.nonhead, v, region i, base (region i)⟩ i = .ok st := by
      simp only [resolveEntry, if_true, if_neg hand]
    rw [List.map_cons, entriesAt, ofCode_code _ hv, resolveEntries_cons, hstep, ok_bind]
    exact ih (fun u hu => hvs u (List.mem_cons_of_mem v hu))
      (fun hbig u hu => hflag hbig u (List.mem_cons_of_mem v hu)) (i + 1)

/-- The flagged NONHEAD sets the block count of the head before it. -/
theorem resolveEntry_count {heads : List Head} {head : Head} {regionHeads : Std.TreeMap ℕ ℕ}
    {blocks region base i : ℕ} (hpos : 1 ≤ blocks) (hle : blocks ≤ 2047) :
    resolveEntry lcsize true ⟨heads ++ [head], regionHeads, some heads.length⟩
        ⟨.nonhead, compactCblkcntFlag + blocks, region, base⟩ i =
      .ok ⟨heads ++ [{ head with cblkcnt := blocks }], regionHeads, some heads.length⟩ := by
  have hflag : (compactCblkcntFlag + blocks) &&& compactCblkcntFlag ≠ 0 := by
    rw [compactCblkcntFlag, show 0x0800 = 2 ^ 11 from rfl, Nat.and_two_pow,
      Nat.testBit_two_pow_add_eq, Nat.testBit_lt_two_pow (by omega)]
    decide
  have hcount : (compactCblkcntFlag + blocks) &&& 0x07FF = blocks := by
    have h := Nat.and_two_pow_sub_one_eq_mod (compactCblkcntFlag + blocks) 11
    rw [show 2 ^ 11 - 1 = 0x07FF from rfl] at h
    rw [h, compactCblkcntFlag]
    omega
  have hget : (heads ++ [head])[heads.length]? = some head := by simp
  simp only [resolveEntry, if_true, hflag, ne_eq, not_false_eq_true, and_self, hget, unwrap,
    ok_bind, hcount, if_neg (show ¬blocks = 0 by omega)]
  simp [pure, Except.pure]

theorem entriesAt_codes (region base : ℕ → ℕ) (i : ℕ) (p : Pcluster lcsize big)
    (hlc : lcsize ≤ 2 ^ 12) :
    entriesAt region base i p.codes =
      ⟨p.ty, p.clusterofs, region i, base (region i)⟩ ::
        entriesAt region base (i + 1) (p.nonheads.map (code .nonhead)) := by
  rw [Pcluster.codes, entriesAt, ofCode_code _ (Nat.lt_of_lt_of_le p.clusterofs_lt hlc)]

/-- The NONHEADs of a big pcluster set its block count. -/
theorem resolveEntries_counted (region base : ℕ → ℕ) (p : Pcluster lcsize true)
    {heads : List Head} {head : Head} (hone : head.cblkcnt = 1)
    (regionHeads : Std.TreeMap ℕ ℕ) (i : ℕ) :
    resolveEntries lcsize true ⟨heads ++ [head], regionHeads, some heads.length⟩ i
        (entriesAt region base i (p.nonheads.map (code .nonhead))) =
      .ok ⟨heads ++ [{ head with cblkcnt := p.blocks }], regionHeads, some heads.length⟩ := by
  have hcounts := p.counts
  have hlt := p.nonheads_lt
  cases hvs : p.nonheads with
  | nil =>
    rw [hvs] at hcounts
    have hblocks : p.blocks = 1 := hcounts
    rw [hblocks, ← hone]
    rfl
  | cons v vs =>
    rw [hvs] at hcounts hlt
    obtain ⟨hpos, hle, hv, hrest⟩ := hcounts
    rw [List.map_cons, entriesAt, ofCode_code _ (hlt v List.mem_cons_self), resolveEntries_cons, hv,
      resolveEntry_count hpos hle, ok_bind]
    exact resolveEntries_nonheads region base (fun u hu => hlt u (List.mem_cons_of_mem v hu))
      (fun _ => hrest) _ (i + 1)

theorem headStart_eq {heads : List Head} {i clusterofs : ℕ}
    (hfirst : heads = [] → i * lcsize + clusterofs = 0) (hfits : i * lcsize + clusterofs < 2 ^ 64) :
    headStart lcsize heads i clusterofs = .ok (i * lcsize + clusterofs) := by
  unfold headStart
  by_cases hnil : heads = []
  · rw [if_pos hnil, hfirst hnil]
  · rw [if_neg hnil]
    refine bind_eq_ok.mpr ⟨i * lcsize, fits_eq_ok.mpr ⟨by omega, rfl⟩, ?_⟩
    exact fits_eq_ok.mpr ⟨hfits, rfl⟩

theorem resolve_bigPcluster (region base : ℕ → ℕ) (p : Pcluster lcsize true)
    (hlc : lcsize ≤ 2 ^ 12) (st : Resolving) {i : ℕ}
    (hfirst : st.heads = [] → i * lcsize + p.clusterofs = 0)
    (hfits : i * lcsize + p.clusterofs < 2 ^ 64) :
    resolveEntries lcsize true st i (entriesAt region base i p.codes) =
      .ok ⟨st.heads ++ [⟨i * lcsize + p.clusterofs, p.ty, 0, p.blocks⟩], st.regionHeads,
        some st.heads.length⟩ := by
  rw [entriesAt_codes region base i p hlc, resolveEntries_cons]
  simp only [resolveEntry, if_neg p.ty_ne, headStart_eq hfirst hfits, ok_bind, if_true]
  have hone : (⟨i * lcsize + p.clusterofs, p.ty, 0, 1⟩ : Head).cblkcnt = 1 := rfl
  exact resolveEntries_counted region base p hone st.regionHeads (i + 1)

theorem resolve_smallPcluster (region base : ℕ → ℕ) (p : Pcluster lcsize false)
    (hlc : lcsize ≤ 2 ^ 12) (st : Resolving) {i addr : ℕ}
    (hfirst : st.heads = [] → i * lcsize + p.clusterofs = 0)
    (hfits : i * lcsize + p.clusterofs < 2 ^ 64)
    (haddr : base (region i) + 1 + st.regionHeads.getD (region i) 0 = addr)
    (hlt : addr < 2 ^ 32) :
    resolveEntries lcsize false st i (entriesAt region base i p.codes) =
      .ok ⟨st.heads ++ [⟨i * lcsize + p.clusterofs, p.ty, addr, 1⟩],
        st.regionHeads.insert (region i) (st.regionHeads.getD (region i) 0 + 1),
        some st.heads.length⟩ := by
  have hchecked : (checkedU32 (base (region i) + 1)).bind (fun b =>
      checkedU32 (b + st.regionHeads.getD (region i) 0)) = some addr := by
    unfold checkedU32
    rw [if_pos (by omega), Option.bind_some, haddr, if_pos hlt]
  rw [entriesAt_codes region base i p hlc, resolveEntries_cons]
  simp only [resolveEntry, if_neg p.ty_ne, headStart_eq hfirst hfits, ok_bind, Bool.false_eq_true,
    if_false, hchecked, okOr]
  exact resolveEntries_nonheads region base p.nonheads_lt (fun h => absurd h Bool.false_ne_true) _
    (i + 1)

def allCodes (ps : List (Pcluster lcsize big)) : List ℕ := ps.flatMap Pcluster.codes

theorem allCodes_cons (p : Pcluster lcsize big) (ps : List (Pcluster lcsize big)) :
    allCodes (p :: ps) = p.codes ++ allCodes ps := List.flatMap_cons

theorem allCodes_ok {ps : List (Pcluster lcsize big)} (hlc : lcsize ≤ 2 ^ 12) :
    Codes (allCodes ps) := by
  intro c hc
  obtain ⟨p, -, hc⟩ := List.mem_flatMap.mp hc
  exact p.codes_ok hlc c hc

/-- The starts of pclusters from lcluster `i` on fit, up to lcluster `n`. -/
theorem start_lt {i n clusterofs : ℕ} (hi : i < n) (hn : n ≤ 2 ^ 28) (hlc : lcsize ≤ 2 ^ 12)
    (hofs : clusterofs < lcsize) : i * lcsize + clusterofs < 2 ^ 64 := by
  have hmul : i * lcsize ≤ 2 ^ 28 * 2 ^ 12 := Nat.mul_le_mul (by omega) hlc
  omega

/-- The heads a big index resolves to before their addresses are placed. -/
def unplaced (heads : List Head) : List Head := heads.map fun h => { h with blkaddr := 0 }

theorem resolve_bigPclusters (region base : ℕ → ℕ) {ps : List (Pcluster lcsize true)}
    (hlc : lcsize ≤ 2 ^ 12) (st : Resolving) (i addr : ℕ)
    (hlen : i + (allCodes ps).length ≤ 2 ^ 28)
    (hfirst : st.heads = [] → i = 0 ∧ ∀ p ∈ ps.head?, p.clusterofs = 0) :
    ∃ st', resolveEntries lcsize true st i (entriesAt region base i (allCodes ps)) = .ok st' ∧
      st'.heads = st.heads ++ unplaced (headsOf i addr ps) := by
  induction ps generalizing st i addr with
  | nil => exact ⟨st, rfl, by simp [unplaced, headsOf]⟩
  | cons p ps ih =>
    rw [allCodes_cons, List.length_append, Pcluster.codes_length] at hlen
    have hpos : 0 < p.lclusters := by
      unfold Pcluster.lclusters
      omega
    have hzero : st.heads = [] → i * lcsize + p.clusterofs = 0 := by
      intro hnil
      obtain ⟨rfl, hp⟩ := hfirst hnil
      rw [hp p rfl, Nat.zero_mul]
    obtain ⟨st', hst', hheads⟩ := ih ⟨st.heads ++ [⟨i * lcsize + p.clusterofs, p.ty, 0, p.blocks⟩],
      st.regionHeads, some st.heads.length⟩ (i + p.lclusters) (addr + p.blocks)
      (by omega) (by simp)
    refine ⟨st', ?_, ?_⟩
    · rw [allCodes_cons, entriesAt_append, resolveEntries_append, resolve_bigPcluster region base p
        hlc st hzero (start_lt (by omega) hlen hlc p.clusterofs_lt), ok_bind, entriesAt_length,
        Pcluster.codes_length]
      exact hst'
    · rw [hheads]
      simp [unplaced, headsOf]

/-- The heads counted before lcluster `i`, whose pcluster is at block `addr`: in
the group of the last head as many as lie between its base and `addr`, in no
later group any. -/
structure Counted (region base : ℕ → ℕ) (last : Option ℕ) (i addr : ℕ)
    (regionHeads : Std.TreeMap ℕ ℕ) : Prop where
  le : ∀ r, last = some r → r ≤ region i
  here : ∀ r, last = some r → base r + 1 + regionHeads.getD r 0 = addr
  later : ∀ r, (∀ l, last = some l → l < r) → regionHeads.getD r 0 = 0

theorem Counted.addr_eq {region base : ℕ → ℕ} {last : Option ℕ} {i addr : ℕ}
    {regionHeads : Std.TreeMap ℕ ℕ} (h : Counted region base last i addr regionHeads)
    (hbase : last ≠ some (region i) → base (region i) + 1 = addr) :
    base (region i) + 1 + regionHeads.getD (region i) 0 = addr := by
  by_cases hlast : last = some (region i)
  · exact h.here _ hlast
  · have hzero : regionHeads.getD (region i) 0 = 0 := by
      apply h.later
      intro l hl
      have hle : l ≤ region i := h.le l hl
      have hne : l ≠ region i := fun heq => hlast (heq ▸ hl)
      omega
    rw [hzero, Nat.add_zero]
    exact hbase hlast

theorem Counted.step {region base : ℕ → ℕ} {last : Option ℕ} {i j addr : ℕ}
    {regionHeads : Std.TreeMap ℕ ℕ} (h : Counted region base last i addr regionHeads)
    (hmono : Monotone region) (hij : i ≤ j)
    (haddr : base (region i) + 1 + regionHeads.getD (region i) 0 = addr) :
    Counted region base (some (region i)) j (addr + 1)
      (regionHeads.insert (region i) (regionHeads.getD (region i) 0 + 1)) := by
  refine ⟨?_, ?_, ?_⟩
  · intro r hr
    obtain rfl : region i = r := Option.some.inj hr
    exact hmono hij
  · intro r hr
    obtain rfl : region i = r := Option.some.inj hr
    rw [Std.TreeMap.getD_insert_self]
    omega
  · intro r hr
    have hlt : region i < r := hr _ rfl
    have hcmp : compare (region i) r ≠ .eq := by
      intro heq
      have := Nat.compare_eq_eq.mp heq
      omega
    rw [Std.TreeMap.getD_insert, if_neg hcmp]
    exact h.later r fun l hl => Nat.lt_of_le_of_lt (h.le l hl) hlt

theorem resolve_smallPclusters {region base : ℕ → ℕ} (hmono : Monotone region)
    {ps : List (Pcluster lcsize false)} (hlc : lcsize ≤ 2 ^ 12) (st : Resolving) {i addr : ℕ}
    {last : Option ℕ} (hcounted : Counted region base last i addr st.regionHeads)
    (hbases : BasesBefore region base last i addr ps)
    (hlt : ∀ h ∈ headsOf i addr ps, h.blkaddr < 2 ^ 32)
    (hlen : i + (allCodes ps).length ≤ 2 ^ 28)
    (hfirst : st.heads = [] → i = 0 ∧ ∀ p ∈ ps.head?, p.clusterofs = 0) :
    ∃ st', resolveEntries lcsize false st i (entriesAt region base i (allCodes ps)) = .ok st' ∧
      st'.heads = st.heads ++ headsOf i addr ps := by
  induction ps generalizing st i addr last with
  | nil => exact ⟨st, rfl, by simp [headsOf]⟩
  | cons p ps ih =>
    rw [allCodes_cons, List.length_append, Pcluster.codes_length] at hlen
    obtain ⟨hbase, hbases⟩ := hbases
    have hpos : 0 < p.lclusters := by
      unfold Pcluster.lclusters
      omega
    have hblocks : p.blocks = 1 := by
      have hcounts := p.counts
      cases hvs : p.nonheads with
      | nil => rwa [hvs] at hcounts
      | cons v vs => rwa [hvs] at hcounts
    have hzero : st.heads = [] → i * lcsize + p.clusterofs = 0 := by
      intro hnil
      obtain ⟨rfl, hp⟩ := hfirst hnil
      rw [hp p rfl, Nat.zero_mul]
    have haddr := hcounted.addr_eq hbase
    have haddr_lt : addr < 2 ^ 32 := hlt _ List.mem_cons_self
    have hcounted' := hcounted.step hmono (Nat.le_add_right i p.lclusters) haddr
    rw [show addr + 1 = addr + p.blocks by rw [hblocks]] at hcounted'
    obtain ⟨st', hst', hheads⟩ := ih ⟨st.heads ++ [⟨i * lcsize + p.clusterofs, p.ty, addr, 1⟩],
      _, some st.heads.length⟩ hcounted' hbases
      (fun h hh => hlt h (List.mem_cons_of_mem _ hh)) (by omega) (by simp)
    refine ⟨st', ?_, ?_⟩
    · rw [allCodes_cons, entriesAt_append, resolveEntries_append, resolve_smallPcluster region base
        p hlc st hzero (start_lt (by omega) hlen hlc p.clusterofs_lt) haddr haddr_lt, ok_bind,
        entriesAt_length, Pcluster.codes_length]
      exact hst'
    · rw [hheads, headsOf, hblocks]
      simp

/-- The running sum gives back to back pclusters their addresses. -/
theorem placeBig_unplaced {ps : List (Pcluster lcsize big)} {i addr : ℕ}
    (hlt : ∀ h ∈ headsOf i addr ps, h.blkaddr < 2 ^ 32) :
    placeBig addr (unplaced (headsOf i addr ps)) = .ok (headsOf i addr ps) := by
  induction ps generalizing i addr with
  | nil => rfl
  | cons p ps ih =>
    have hrest := ih fun h hh => hlt h (List.mem_cons_of_mem _ hh)
    cases ps with
    | nil => rfl
    | cons q qs =>
      have hq : addr + p.blocks < 2 ^ 32 :=
        hlt _ (List.mem_cons_of_mem _ List.mem_cons_self)
      have hcheck : checkedU32 (addr + p.blocks) = some (addr + p.blocks) := if_pos hq
      simp only [unplaced, headsOf, List.map_cons] at hrest ⊢
      simp only [placeBig, hcheck, okOr, ok_bind, hrest]
      rfl

theorem encodeZone_length {size per : ℕ} {unpack : List UInt8 → ℕ → Outcome (List ℕ)}
    {enc : List ℕ → ℕ → List UInt8} (hlay : Layout size per unpack enc) (base : ℕ → ℕ) (rid : ℕ)
    (codes : List ℕ) :
    (encodeZone per hlay.per_pos enc base rid codes).length = divCeil codes.length per * size := by
  have hper := hlay.per_pos
  induction hn : codes.length using Nat.strong_induction_on generalizing codes rid with
  | _ n ih =>
  rw [encodeZone]
  by_cases hnil : codes = []
  · subst hnil hn
    have hceil : divCeil 0 per = 0 := Nat.div_eq_of_lt (by omega)
    simp [hceil]
  · have hpos : 0 < codes.length := List.length_pos_iff.mpr hnil
    have hrest := ih (codes.drop per).length (by rw [List.length_drop]; omega) (rid + 1)
      (codes.drop per) rfl
    rw [if_neg hnil, List.length_append, hlay.length, hrest, List.length_drop, hn,
      divCeil_succ hper (show 0 < n by omega), Nat.add_mul, Nat.one_mul, Nat.add_comm]

theorem initialLclusters_le (ebase nLc : ℕ) : initialLclusters ebase nLc ≤ nLc := by
  unfold initialLclusters
  omega

theorem packedLclusters_le (ebase nLc : ℕ) :
    initialLclusters ebase nLc + packedLclusters ebase nLc ≤ nLc := by
  have hle := initialLclusters_le ebase nLc
  unfold packedLclusters
  omega

theorem packedLclusters_groups (ebase nLc : ℕ) :
    divCeil (packedLclusters ebase nLc) 16 = packedLclusters ebase nLc / 16 := by
  unfold packedLclusters divCeil
  omega

/-- The bytes an index of `nLc` lclusters at `ebase` takes. -/
def compactLen (ebase nLc : ℕ) : ℕ :=
  indexLen (initialLclusters ebase nLc) (packedLclusters ebase nLc)
    (nLc - initialLclusters ebase nLc - packedLclusters ebase nLc)

theorem encodeIndex_length (ebase pad : ℕ) (base : ℕ → ℕ) (codes : List ℕ) :
    (encodeIndex ebase pad base codes).length = compactLen ebase codes.length := by
  have hle := packedLclusters_le ebase codes.length
  unfold encodeIndex compactLen indexLen
  dsimp only
  rw [List.length_append, List.length_append, encodeZone_length (halfGroup_layout pad),
    encodeZone_length packGroup_layout, encodeZone_length (halfGroup_layout pad), List.length_take,
    List.length_take, List.length_drop, List.length_drop, ← packedLclusters_groups]
  rw [show min (initialLclusters ebase codes.length) codes.length =
      initialLclusters ebase codes.length by omega,
    show min (packedLclusters ebase codes.length)
        (codes.length - initialLclusters ebase codes.length) =
      packedLclusters ebase codes.length by omega, Nat.sub_sub]

theorem le_compactLen (ebase nLc : ℕ) : 2 * nLc ≤ compactLen ebase nLc := by
  have hle := packedLclusters_le ebase nLc
  have hdiv : 16 ∣ packedLclusters ebase nLc := Nat.dvd_mul_left _ _
  unfold compactLen indexLen divCeil
  omega

theorem regionOf_initial {ebase nLc j : ℕ} (hj : j < initialLclusters ebase nLc) :
    regionOf ebase nLc (0 + j) = 0 + j / 2 := by
  unfold regionOf
  simp only [Nat.zero_add, if_pos hj]

theorem regionOf_packed {ebase nLc j : ℕ} (hj : j < packedLclusters ebase nLc) :
    regionOf ebase nLc (initialLclusters ebase nLc + j) =
      0 + divCeil (initialLclusters ebase nLc) 2 + j / 16 := by
  unfold regionOf
  simp only [if_neg (show ¬initialLclusters ebase nLc + j < initialLclusters ebase nLc by omega),
    if_pos (Nat.add_lt_add_left hj _), Nat.add_sub_cancel_left, Nat.zero_add]

theorem regionOf_final (ebase nLc j : ℕ) :
    regionOf ebase nLc (initialLclusters ebase nLc + packedLclusters ebase nLc + j) =
      0 + divCeil (initialLclusters ebase nLc) 2 + divCeil (packedLclusters ebase nLc) 16 +
        j / 2 := by
  unfold regionOf
  dsimp only
  rw [if_neg (by omega), if_neg (by omega), Nat.add_assoc (initialLclusters ebase nLc),
    Nat.add_sub_cancel_left, Nat.add_sub_cancel_left, Nat.zero_add]

/-- The entries of written zones are the codes they were written from. -/
theorem readEntries_encodeIndex {ebase pad : ℕ} {base : ℕ → ℕ} {codes : List ℕ}
    (hbase : ∀ g, base g < 2 ^ 32) (hcodes : Codes codes) {c4i c2b : ℕ}
    (hc4i : c4i = initialLclusters ebase codes.length)
    (hc2b : c2b = packedLclusters ebase codes.length) :
    readEntries (encodeIndex ebase pad base codes) c4i c2b (codes.length - c4i - c2b) =
      .ok (entriesAt (regionOf ebase codes.length) base 0 codes) := by
  have hle := packedLclusters_le ebase codes.length
  rw [← hc4i, ← hc2b] at hle
  have hlen₁ : (codes.take c4i).length = c4i := by
    rw [List.length_take]
    omega
  have hlen₂ : ((codes.drop c4i).take c2b).length = c2b := by
    rw [List.length_take, List.length_drop]
    omega
  have hlen₃ : (codes.drop (c4i + c2b)).length = codes.length - c4i - c2b := by
    rw [List.length_drop]
    omega
  have hsplit : codes.take c4i ++ (codes.drop c4i).take c2b ++ codes.drop (c4i + c2b) = codes := by
    rw [List.append_assoc, ← List.drop_drop, List.take_append_drop, List.take_append_drop]
  have hentries := entriesAt_append (regionOf ebase codes.length) base 0
    (codes.take c4i ++ (codes.drop c4i).take c2b) (codes.drop (c4i + c2b))
  rw [hsplit, entriesAt_append, List.length_append, hlen₁, hlen₂, Nat.zero_add,
    Nat.zero_add] at hentries
  unfold encodeIndex
  dsimp only
  rw [← hc4i, ← hc2b]
  have hz₁ := fun z₂ z₃ => readGroups_encodeZone "erofs: compact 4b group out of range"
    (halfGroup_layout pad) (regionOf ebase codes.length) hbase
    (hcodes.sublist (List.take_sublist c4i codes)) [] (z₂ ++ z₃) 0 0
    (fun j hj => regionOf_initial (by omega)) rfl
  have hz₂ := fun z₁ z₃ => readGroups_encodeZone "erofs: compact 2b pack out of range"
    packGroup_layout (regionOf ebase codes.length) hbase
    (hcodes.sublist ((List.take_sublist c2b _).trans (List.drop_sublist c4i codes))) z₁ z₃
    (0 + divCeil c4i 2) c4i
    (fun j hj => by rw [hc4i]; exact regionOf_packed (by omega)) rfl
  have hz₃ := fun z₁ z₂ => readGroups_encodeZone "erofs: compact 4b group out of range"
    (halfGroup_layout pad) (regionOf ebase codes.length) hbase
    (hcodes.sublist (List.drop_sublist (c4i + c2b) codes)) (z₁ ++ z₂) []
    (0 + divCeil c4i 2 + divCeil c2b 16) (c4i + c2b)
    (fun j hj => by rw [hc4i, hc2b]; exact regionOf_final ebase codes.length j) rfl
  simp only [hlen₁, hlen₂, hlen₃, List.length_nil, List.nil_append, List.append_nil,
    List.length_append, Nat.zero_add, ← List.append_assoc] at hz₁ hz₂ hz₃
  unfold readEntries read4bGroups read2bPacks
  simp only [hz₁, hz₂, hz₃, ok_bind, hentries]
  rfl

theorem buildHeadsCompact_encodeIndex {src : Source} {ebase pad advise : ℕ} {base : ℕ → ℕ}
    {codes : List ℕ} (hbase : ∀ g, base g < 2 ^ 32) (hcodes : Codes codes)
    (hcap : compactLen ebase codes.length ≤ maxBootFileBytes)
    (hsrc : slice src.content ebase (compactLen ebase codes.length) =
      some (encodeIndex ebase pad base codes)) :
    buildHeadsCompact src ebase lcsize codes.length advise =
      resolveCompactHeads (entriesAt (regionOf ebase codes.length) base 0 codes) lcsize advise := by
  have hread := Source.readAt_eq_ok.mpr hsrc
  have hfits : u64 (compactLen ebase codes.length) = .ok (compactLen ebase codes.length) := by
    refine fits_eq_ok.mpr ⟨?_, rfl⟩
    unfold maxBootFileBytes at hcap
    omega
  have hcheck : checkedFullReadLen (compactLen ebase codes.length) =
      .ok (compactLen ebase codes.length) := checkedFullReadLen_eq_ok.mpr ⟨hcap, rfl⟩
  unfold compactLen at hfits hcheck hread
  unfold buildHeadsCompact
  simp only [zones_eq, hfits, hcheck, hread, ok_bind, lift_self,
    readEntries_encodeIndex hbase hcodes]

theorem regionOf_zero (ebase nLc : ℕ) : regionOf ebase nLc 0 = 0 := by
  unfold regionOf divCeil
  dsimp only
  split_ifs <;> omega

theorem firstBase_eq (region base : ℕ → ℕ) (i : ℕ) {p : Pcluster lcsize big}
    {ps : List (Pcluster lcsize big)} :
    ((entriesAt region base i (allCodes (p :: ps))).head?.map RawEntry.base).getD 0 =
      base (region i) := rfl

theorem resolveCompactHeads_entries {advise addr : ℕ} {region base : ℕ → ℕ}
    {ps : List (Pcluster lcsize big)} (hbig : isBig advise = big) (hmono : Monotone region)
    (hzero : region 0 = 0) (hlc : lcsize ≤ 2 ^ 12) (hlen : (allCodes ps).length ≤ 2 ^ 28)
    (hfirst : ∀ p ∈ ps.head?, p.clusterofs = 0) (hbases : Bases region base addr ps)
    (hlt : ∀ h ∈ headsOf 0 addr ps, h.blkaddr < 2 ^ 32) :
    resolveCompactHeads (entriesAt region base 0 (allCodes ps)) lcsize advise =
      .ok (headsOf 0 addr ps) := by
  unfold resolveCompactHeads
  dsimp only
  rw [hbig]
  cases big with
  | false =>
    have hcounted : Counted region base none 0 addr Resolving.init.regionHeads := by
      refine ⟨fun r hr => (nomatch hr), fun r hr => (nomatch hr), fun r _ => ?_⟩
      exact Std.TreeMap.getD_emptyc
    obtain ⟨st, hst, hheads⟩ := resolve_smallPclusters hmono hlc .init hcounted hbases hlt
      (by omega) (fun _ => ⟨rfl, hfirst⟩)
    refine bind_eq_ok.mpr ⟨st, hst, ?_⟩
    rw [if_neg Bool.false_ne_true, hheads]
    rfl
  | true =>
    obtain ⟨st, hst, hheads⟩ := resolve_bigPclusters region base hlc .init 0 addr
      (by omega) (fun _ => ⟨rfl, hfirst⟩)
    refine bind_eq_ok.mpr ⟨st, hst, ?_⟩
    rw [if_pos rfl, hheads]
    cases ps with
    | nil => rfl
    | cons p ps =>
      have haddr : base 0 = addr := hbases
      rw [firstBase_eq, hzero, haddr]
      exact placeBig_unplaced hlt

/-- The source holds, at `ebase`, the index written for these pclusters. -/
structure Written (src : Source) (lcsize advise ebase pad : ℕ) (base : ℕ → ℕ) (addr : ℕ)
    (ps : List (Pcluster lcsize (isBig advise))) : Prop where
  lcsize_eq : ∃ lcbits, 9 ≤ lcbits ∧ lcbits ≤ 12 ∧ lcsize = 2 ^ lcbits
  aligned : 8 ∣ ebase
  first : ∀ p ∈ ps.head?, p.clusterofs = 0
  addr_pos : 1 ≤ addr
  addr_lt : ∀ h ∈ headsOf 0 addr ps, h.blkaddr < 2 ^ 32
  base_lt : ∀ g, base g < 2 ^ 32
  bases : Bases (regionOf ebase (allCodes ps).length) base addr ps
  stored : slice src.content ebase (compactLen ebase (allCodes ps).length) =
    some (encodeIndex ebase pad base (allCodes ps))

section Written

variable {src : Source} {advise ebase pad addr : ℕ} {base : ℕ → ℕ}
  {ps : List (Pcluster lcsize (isBig advise))} (hw : Written src lcsize advise ebase pad base addr ps)

include hw

theorem Written.lcsize_le : lcsize ≤ 2 ^ 12 := by
  obtain ⟨lcbits, -, hle, rfl⟩ := hw.lcsize_eq
  exact Nat.pow_le_pow_right (by decide) hle

/-- Within the read cap the entries are read back. -/
theorem Written.read (hcap : compactLen ebase (allCodes ps).length ≤ maxBootFileBytes) :
    buildHeadsCompact src ebase lcsize (allCodes ps).length advise =
      resolveCompactHeads (entriesAt (regionOf ebase (allCodes ps).length) base 0 (allCodes ps))
        lcsize advise :=
  buildHeadsCompact_encodeIndex hw.base_lt (allCodes_ok hw.lcsize_le) hcap hw.stored

/-- The entries resolve to the pclusters. -/
theorem Written.resolve (hcap : compactLen ebase (allCodes ps).length ≤ maxBootFileBytes) :
    resolveCompactHeads (entriesAt (regionOf ebase (allCodes ps).length) base 0 (allCodes ps))
      lcsize advise = .ok (headsOf 0 addr ps) := by
  have hlen : (allCodes ps).length ≤ 2 ^ 28 := by
    have hle := le_compactLen ebase (allCodes ps).length
    unfold maxBootFileBytes at hcap
    omega
  exact resolveCompactHeads_entries rfl (regionOf_mono ebase _) (regionOf_zero ebase _) hw.lcsize_le
    hlen hw.first hw.bases hw.addr_lt

/-- Above it the index is refused by its length. -/
theorem Written.refused (hover : maxBootFileBytes < compactLen ebase (allCodes ps).length) :
    buildHeadsCompact src ebase lcsize (allCodes ps).length advise =
      fail (.fileTooLarge (compactLen ebase (allCodes ps).length) maxBootFileBytes) := by
  have hin := (slice_eq_some.mp hw.stored).1
  have hlt := src.length_lt
  have hfits : u64 (compactLen ebase (allCodes ps).length) =
      .ok (compactLen ebase (allCodes ps).length) := fits_eq_ok.mpr ⟨by omega, rfl⟩
  have hcheck : checkedFullReadLen (compactLen ebase (allCodes ps).length) =
      fail (.fileTooLarge (compactLen ebase (allCodes ps).length) maxBootFileBytes) :=
    checkedLen_of_lt hover
  unfold compactLen at hfits hcheck ⊢
  unfold buildHeadsCompact
  simp only [zones_eq, hfits, lift_ok_bind, hcheck]
  rfl

end Written

/-- A written index within the read cap is read back as its pclusters, a longer one
refused. -/
theorem buildHeadsCompact_roundTrip {src : Source} {lcsize advise ebase pad addr : ℕ}
    {base : ℕ → ℕ} {ps : List (Pcluster lcsize (isBig advise))}
    (hw : Written src lcsize advise ebase pad base addr ps) :
    (compactLen ebase (allCodes ps).length ≤ maxBootFileBytes →
        buildHeadsCompact src ebase lcsize (allCodes ps).length advise =
          .ok (headsOf 0 addr ps)) ∧
      (maxBootFileBytes < compactLen ebase (allCodes ps).length →
        buildHeadsCompact src ebase lcsize (allCodes ps).length advise =
          fail (.fileTooLarge (compactLen ebase (allCodes ps).length) maxBootFileBytes)) := by
  refine ⟨fun hcap => ?_, hw.refused⟩
  rw [hw.read hcap]
  exact hw.resolve hcap

theorem plain_ne_nonhead : LcType.plain ≠ .nonhead := by decide

theorem lcluster_pos : 0 < 512 := by decide

/-- Two pclusters in two groups: a HEAD1 with a NONHEAD, then a PLAIN. -/
def twoPclusters : List (Pcluster 512 (isBig 1)) :=
  [⟨.head1, 0, 1, [7], by decide, by decide, by decide, rfl⟩,
    ⟨.plain, 5, 1, [], by decide, by decide, by decide, rfl⟩]

def twoPclustersSource : Source where
  content := List.replicate 8 0 ++ encodeIndex 8 0 (· % 2 + 6) (allCodes twoPclusters)
  length_lt := by
    rw [List.length_append, encodeIndex_length]
    decide +kernel

theorem buildHeadsCompact_roundTrip_two :
    buildHeadsCompact twoPclustersSource 8 512 3 1 =
      .ok [⟨0, .head1, 7, 1⟩, ⟨1029, .plain, 8, 1⟩] := by
  have hstored : slice twoPclustersSource.content 8 (compactLen 8 (allCodes twoPclusters).length) =
      some (encodeIndex 8 0 (· % 2 + 6) (allCodes twoPclusters)) := by
    have hcontent : twoPclustersSource.content = List.replicate 8 0 ++
        encodeIndex 8 0 (· % 2 + 6) (allCodes twoPclusters) ++ [] := (List.append_nil _).symm
    exact slice_of_append hcontent rfl (encodeIndex_length ..).symm
  have hw : Written twoPclustersSource 512 1 8 0 (· % 2 + 6) 7 twoPclusters := by
    refine ⟨⟨9, by decide, by decide, rfl⟩, by decide, ?_, by decide, by decide, ?_, ?_, hstored⟩
    · intro p hp
      obtain rfl := Option.some.inj hp
      rfl
    · intro g
      show g % 2 + 6 < 2 ^ 32
      omega
    · exact ⟨fun _ => rfl, fun _ => rfl, trivial⟩
  have hlen : (allCodes twoPclusters).length = 3 := rfl
  have hheads : headsOf 0 7 twoPclusters = [⟨0, .head1, 7, 1⟩, ⟨1029, .plain, 8, 1⟩] := rfl
  rw [← hlen, ← hheads]
  exact (buildHeadsCompact_roundTrip hw).1 (by decide +kernel)

theorem countsBlocks_one (vs : List ℕ) : CountsBlocks false 1 vs := by
  cases vs <;> rfl

/-- A pcluster of one block and `n + 1` lclusters. -/
def longPcluster (n : ℕ) : Pcluster 512 (isBig 1) where
  ty := .head1
  clusterofs := 0
  blocks := 1
  nonheads := List.replicate n 0
  ty_ne := by decide
  clusterofs_lt := by decide
  nonheads_lt v hv := by
    rw [List.eq_of_mem_replicate hv]
    decide
  counts := countsBlocks_one _

theorem longPcluster_codes (n : ℕ) : (allCodes [longPcluster n]).length = n + 1 := by
  rw [allCodes_cons, List.length_append, Pcluster.codes_length, Pcluster.lclusters, longPcluster,
    List.length_replicate, Nat.add_comm 1]
  rfl

def longSource (n : ℕ) (h : compactLen 0 (n + 1) < 2 ^ 64) : Source where
  content := encodeIndex 0 0 (fun _ => 0) (allCodes [longPcluster n])
  length_lt := by rwa [encodeIndex_length, longPcluster_codes]

theorem longSource_written (n : ℕ) (h : compactLen 0 (n + 1) < 2 ^ 64) :
    Written (longSource n h) 512 1 0 0 (fun _ => 0) 1 [longPcluster n] := by
  refine ⟨⟨9, by decide, by decide, rfl⟩, by decide, ?_, by decide, ?_, ?_, ?_, ?_⟩
  · intro p hp
    obtain rfl := Option.some.inj hp
    rfl
  · intro head hhead
    obtain rfl := List.mem_singleton.mp hhead
    show 1 < 2 ^ 32
    decide
  · intro g
    decide
  · exact ⟨fun _ => rfl, trivial⟩
  · have hcontent : (longSource n h).content =
        [] ++ encodeIndex 0 0 (fun _ => 0) (allCodes [longPcluster n]) ++ [] :=
      (List.append_nil _).symm
    exact slice_of_append hcontent rfl (encodeIndex_length ..).symm

/-- A long index is written as any other, and refused. -/
theorem buildHeadsCompact_long :
    Written (longSource (2 ^ 28) (by decide +kernel)) 512 1 0 0 (fun _ => 0) 1
        [longPcluster (2 ^ 28)] ∧
      buildHeadsCompact (longSource (2 ^ 28) (by decide +kernel)) 0 512
          (allCodes [longPcluster (2 ^ 28)]).length 1 =
        fail (.fileTooLarge (2 ^ 29 + 8) maxBootFileBytes) := by
  have hw := longSource_written (2 ^ 28) (by decide +kernel)
  have hlen : compactLen 0 (allCodes [longPcluster (2 ^ 28)]).length = 2 ^ 29 + 8 := by
    rw [longPcluster_codes]
    decide +kernel
  refine ⟨hw, ?_⟩
  rw [← hlen]
  apply hw.refused
  rw [hlen]
  decide

end Lamfold.Erofs
