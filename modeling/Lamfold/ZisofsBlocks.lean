import Lamfold.IsoAnswers

/-!
What a compressed file on ISO 9660 holds. A read goes from block to block and stops at
the first that inflates to less than its share, without an error; so it supplies what is
there up to that byte, and all of the file when no block that is read is short.
-/
namespace Lamfold.Iso9660

open Effects Bytes RockRidge

variable {ρ : Type} (codecs : Codecs ρ) (vol : Volume)

section Blocks

variable (head : List UInt8) (extentOff blockSize size : ℕ)

/-- The uncompressed length of block `blk`. -/
def blockShare (blk : ℕ) : ℕ := min blockSize (size - blk * blockSize)

/-- What the block is stored as, inflated. -/
def inflatedBlock (blk : ℕ) : Outcome (List UInt8) := do
  let cstart ← blockPtr head blk
  let cend ← blockPtr head (blk + 1)
  zisofsBlock codecs vol extentOff cstart cend (blockShare blockSize size blk)

/-- The block of byte `p` can be read, and ends before the byte. -/
def ShortAt (p : ℕ) : Prop :=
  ∃ bytes, inflatedBlock codecs vol head extentOff blockSize size (p / blockSize) = .ok bytes ∧
    bytes.length ≤ p % blockSize

/-- The first byte that is missing, or the size of the file. -/
structure FirstShort (avail : ℕ) : Prop where
  le_size : avail ≤ size
  none_before : ∀ p < avail, ¬ShortAt codecs vol head extentOff blockSize size p
  short : avail < size → ShortAt codecs vol head extentOff blockSize size avail

end Blocks

variable {codecs vol} {head : List UInt8} {extentOff blockSize size : ℕ}

theorem zisofsBlock_le {extentOff cstart cend uncompressed : ℕ} {bytes : List UInt8}
    (h : zisofsBlock codecs vol extentOff cstart cend uncompressed = .ok bytes) :
    bytes.length ≤ uncompressed := by
  unfold zisofsBlock at h
  split at h
  · cases h
    rw [List.length_replicate]
  · obtain ⟨clen, -, h⟩ := bind_eq_ok.mp h
    obtain ⟨at_, -, h⟩ := bind_eq_ok.mp h
    obtain ⟨cbuf, -, h⟩ := bind_eq_ok.mp h
    exact decode_le h

theorem inflatedBlock_le {blk : ℕ} {bytes : List UInt8}
    (h : inflatedBlock codecs vol head extentOff blockSize size blk = .ok bytes) :
    bytes.length ≤ blockShare blockSize size blk := by
  obtain ⟨cstart, -, h⟩ := bind_eq_ok.mp h
  obtain ⟨cend, -, h⟩ := bind_eq_ok.mp h
  exact zisofsBlock_le h

theorem exists_firstShort (codecs : Codecs ρ) (vol : Volume) (head : List UInt8)
    (extentOff blockSize size : ℕ) :
    ∃ avail, FirstShort codecs vol head extentOff blockSize size avail := by
  classical
  by_cases h : ∃ p, p < size ∧ ShortAt codecs vol head extentOff blockSize size p
  · obtain ⟨hlt, hshort⟩ := Nat.find_spec h
    refine ⟨Nat.find h, Nat.le_of_lt hlt, ?_, fun _ => hshort⟩
    intro p hp hshortp
    exact Nat.find_min h hp ⟨by omega, hshortp⟩
  · refine ⟨size, le_rfl, ?_, fun hlt => absurd hlt (Nat.lt_irrefl _)⟩
    intro p hp hshort
    exact h ⟨p, hp, hshort⟩

/-- Every block that can be read has its share exactly when no byte is missing. -/
theorem FirstShort.size_le_iff {avail : ℕ} (hbs : 0 < blockSize)
    (h : FirstShort codecs vol head extentOff blockSize size avail) :
    size ≤ avail ↔ ∀ blk < divCeil size blockSize, ∀ bytes,
      inflatedBlock codecs vol head extentOff blockSize size blk = .ok bytes →
        bytes.length = blockShare blockSize size blk := by
  constructor
  · intro hle blk hblk bytes hbytes
    have hmax := inflatedBlock_le hbytes
    have hstart := (lt_divCeil_iff hbs).mp hblk
    by_contra hne
    unfold blockShare at hmax hne
    have hlt : bytes.length < blockSize := by omega
    have hdiv : (blk * blockSize + bytes.length) / blockSize = blk := by
      rw [Nat.mul_comm, Nat.mul_add_div hbs, Nat.div_eq_of_lt hlt, Nat.add_zero]
    have hmod : (blk * blockSize + bytes.length) % blockSize = bytes.length := by
      rw [Nat.mul_comm, Nat.mul_add_mod, Nat.mod_eq_of_lt hlt]
    refine h.none_before (blk * blockSize + bytes.length) (by omega) ⟨bytes, ?_, ?_⟩
    · rw [hdiv]
      exact hbytes
    · rw [hmod]
  · intro hall
    by_contra hlt
    obtain ⟨bytes, hbytes, hshort⟩ := h.short (by omega)
    have hblk : avail / blockSize < divCeil size blockSize :=
      (lt_divCeil_iff hbs).mpr (Nat.lt_of_le_of_lt (Nat.div_mul_le_self _ _) (by omega))
    have hlen := hall _ hblk bytes hbytes
    have hmod := Nat.mod_lt avail hbs
    have hsplit := Nat.div_add_mod' avail blockSize
    unfold blockShare at hlen
    omega

/-- A window ends at the first byte that is missing. -/
theorem zisofsFrom_length {avail stop cur : ℕ} {out data : List UInt8} (hbs : 0 < blockSize)
    (hfirst : FirstShort codecs vol head extentOff blockSize size avail) (hcur : cur ≤ avail)
    (hstop : stop ≤ size)
    (h : zisofsFrom codecs vol head extentOff blockSize size stop cur out = .ok data) :
    data.length = out.length + (min stop avail - cur) := by
  fun_induction zisofsFrom codecs vol head extentOff blockSize size stop cur out with
  | case1 cur out hlt blk ih =>
    have hbase : blk * blockSize ≤ cur := Nat.div_mul_le_self cur blockSize
    have hsplit : blk * blockSize + cur % blockSize = cur := Nat.div_add_mod' cur blockSize
    have hmod := Nat.mod_lt cur hbs
    obtain ⟨base, hbase', h⟩ := bind_eq_ok.mp h
    obtain ⟨-, rfl⟩ := fits_eq_ok.mp hbase'
    obtain ⟨left, hleft, h⟩ := bind_eq_ok.mp h
    obtain ⟨-, rfl⟩ := minus_eq_ok.mp hleft
    obtain ⟨cstart, hcstart, h⟩ := bind_eq_ok.mp h
    obtain ⟨cend, hcend, h⟩ := bind_eq_ok.mp h
    obtain ⟨block, hblock, h⟩ := bind_eq_ok.mp h
    obtain ⟨inBlk, hinBlk, h⟩ := bind_eq_ok.mp h
    obtain ⟨-, rfl⟩ := minus_eq_ok.mp hinBlk
    have hinflated : inflatedBlock codecs vol head extentOff blockSize size blk = .ok block :=
      bind_eq_ok.mpr ⟨cstart, hcstart, bind_eq_ok.mpr ⟨cend, hcend, hblock⟩⟩
    have hmax := inflatedBlock_le hinflated
    unfold blockShare at hmax
    dsimp only at h
    split at h
    · rename_i htake
      cases h
      have hshort : avail ≤ cur := by
        by_contra hlt
        refine hfirst.none_before cur (by omega) ⟨block, hinflated, by omega⟩
      omega
    · rename_i htake
      obtain ⟨bytes, hbytes, h⟩ := bind_eq_ok.mp h
      have hlen := slice_length (unwrap_eq_ok.mp hbytes)
      have hnext : cur + bytes.length ≤ avail := by
        by_contra hlt
        obtain ⟨bytes', hbytes', hshort⟩ := hfirst.short (by omega)
        -- the byte that is missing would be in the block just read
        have hsame : avail / blockSize = blk := by
          refine Nat.div_eq_of_lt_le (by omega) ?_
          rw [Nat.succ_mul]
          omega
        have hsplit' := Nat.div_add_mod' avail blockSize
        rw [hsame] at hbytes' hsplit'
        rw [hinflated] at hbytes'
        obtain rfl := Except.ok.inj hbytes'
        omega
      rw [← hlen] at h
      have hrest := ih block _ htake bytes (by omega) (hlen ▸ h)
      rw [List.length_append] at hrest
      omega
  | case2 cur out hge =>
    cases h
    omega

theorem zisofsFrom_short {stop cur : ℕ} {out : List UInt8} (hcur : cur < stop)
    (hsize : cur < size) (hlt : size < 2 ^ 64)
    (h : ShortAt codecs vol head extentOff blockSize size cur) :
    zisofsFrom codecs vol head extentOff blockSize size stop cur out = .ok out := by
  obtain ⟨block, hblock, hshort⟩ := h
  obtain ⟨cstart, hcstart, hblock⟩ := bind_eq_ok.mp hblock
  obtain ⟨cend, hcend, hblock⟩ := bind_eq_ok.mp hblock
  have hbase := Nat.div_mul_le_self cur blockSize
  have hsplit := Nat.div_add_mod' cur blockSize
  unfold blockShare at hblock
  rw [zisofsFrom, if_pos hcur]
  refine bind_eq_ok.mpr ⟨_, fits_eq_ok.mpr ⟨by omega, rfl⟩, ?_⟩
  refine bind_eq_ok.mpr ⟨_, minus_eq_ok.mpr ⟨by omega, rfl⟩, ?_⟩
  refine bind_eq_ok.mpr ⟨cstart, hcstart, bind_eq_ok.mpr ⟨cend, hcend, ?_⟩⟩
  refine bind_eq_ok.mpr ⟨block, hblock, ?_⟩
  refine bind_eq_ok.mpr ⟨_, minus_eq_ok.mpr ⟨hbase, rfl⟩, ?_⟩
  dsimp only
  rw [if_pos (by omega)]
  rfl

/-- The head that a read finds: the header with its magic, and a pointer for each block
and one more. -/
structure ZisofsHead (vol : Volume) (inode : Inode) (zi : Zisofs) (head : List UInt8) : Prop where
  log2_lt : zi.blockSizeLog2 < 31
  len_le : 16 + (divCeil zi.uncompressedSize (1 <<< zi.blockSizeLog2) + 1) * 4 ≤ maxBootFileBytes
  read : vol.src.readAt (inode.lba * vol.blockSize)
    (16 + (divCeil zi.uncompressedSize (1 <<< zi.blockSizeLog2) + 1) * 4) = .ok head
  magic : slice head 0 8 = some zisofsMagic

/-- Every block that can be read inflates to its share. -/
def ZisofsWhole (codecs : Codecs ρ) (vol : Volume) (inode : Inode) (zi : Zisofs) : Prop :=
  ∀ head, ZisofsHead vol inode zi head →
    ∀ blk < divCeil zi.uncompressedSize (1 <<< zi.blockSizeLog2), ∀ bytes,
      inflatedBlock codecs vol head (inode.lba * vol.blockSize) (1 <<< zi.blockSizeLog2)
        zi.uncompressedSize blk = .ok bytes →
          bytes.length = blockShare (1 <<< zi.blockSizeLog2) zi.uncompressedSize blk

theorem readZisofs_eq_ok (hvol : vol.Bounded) {inode : Inode} (hinode : inode.Bounded)
    {zi : Zisofs} (hzi : inode.zisofs = some zi) {off : ℕ} {buf : List UInt8}
    {r : ℕ × List UInt8} (hoff : off < zi.uncompressedSize) :
    readZisofs codecs vol inode zi off buf = .ok r ↔
      ∃ head data, ZisofsHead vol inode zi head ∧
        zisofsFrom codecs vol head (inode.lba * vol.blockSize) (1 <<< zi.blockSizeLog2)
          zi.uncompressedSize (off + min buf.length (zi.uncompressedSize - off)) off [] =
            .ok data ∧
        r = (data.length, overwrite buf 0 data) := by
  have hin : ¬off ≥ zi.uncompressedSize := Nat.not_le.mpr hoff
  by_cases hlog2 : zi.blockSizeLog2 ≥ 31
  · constructor
    · intro h
      unfold readZisofs at h
      rw [if_neg hin, if_pos hlog2] at h
      exact absurd h (fail_ne_ok _ _)
    · intro h
      obtain ⟨head, -, hhead, -⟩ := h
      exact absurd hhead.log2_lt (Nat.not_lt.mpr hlog2)
  rw [readZisofs_eq hvol hinode hzi hin hlog2]
  constructor
  · intro h
    obtain ⟨headLen, hlen, h⟩ := bind_eq_ok.mp h
    obtain ⟨hcap, rfl⟩ := checkedFullReadLen_eq_ok.mp hlen
    obtain ⟨head, hread, h⟩ := bind_eq_ok.mp h
    obtain ⟨magic, hmagic, h⟩ := bind_eq_ok.mp h
    obtain ⟨heq, h⟩ := ite_error_eq_ok.mp h
    obtain ⟨data, hdata, h⟩ := bind_eq_ok.mp h
    rw [not_not.mp heq] at hmagic
    exact ⟨head, data, ⟨Nat.lt_of_not_le hlog2, hcap, hread, unwrap_eq_ok.mp hmagic⟩, hdata,
      (Except.ok.inj h).symm⟩
  · intro h
    obtain ⟨head, data, hhead, hdata, rfl⟩ := h
    refine bind_eq_ok.mpr ⟨_, checkedFullReadLen_eq_ok.mpr ⟨hhead.len_le, rfl⟩, ?_⟩
    refine bind_eq_ok.mpr ⟨head, hhead.read, ?_⟩
    refine bind_eq_ok.mpr ⟨_, unwrap_eq_ok.mpr hhead.magic, ?_⟩
    rw [if_neg (not_not.mpr rfl)]
    exact bind_eq_ok.mpr ⟨data, hdata, rfl⟩

/-- Up to which byte reads of a compressed file supply it. -/
theorem exists_zisofs_avail (codecs : Codecs ρ) (hvol : vol.Bounded) {inode : Inode}
    (hinode : inode.Bounded) {zi : Zisofs} (hzi : inode.zisofs = some zi) :
    ∃ avail, avail ≤ zi.uncompressedSize ∧
      (zi.uncompressedSize ≤ avail ↔ ZisofsWhole codecs vol inode zi) ∧
      (∀ off buf n window, off ≤ avail → readZisofs codecs vol inode zi off buf = .ok (n, window) →
        n = min buf.length (avail - off) ∧ window.length = buf.length) ∧
      (avail < zi.uncompressedSize → ∃ r, readZisofs codecs vol inode zi avail [0] = .ok r) := by
  have hbs : 0 < 1 <<< zi.blockSizeLog2 := by
    rw [Nat.one_shiftLeft]
    exact Nat.two_pow_pos _
  have hpast : ∀ off buf n window, off ≥ zi.uncompressedSize →
      readZisofs codecs vol inode zi off buf = .ok (n, window) → n = 0 ∧ window = buf := by
    intro off buf n window hoff h
    unfold readZisofs at h
    rw [if_pos hoff] at h
    obtain ⟨rfl, rfl⟩ := Prod.mk.inj (Except.ok.inj h)
    exact ⟨rfl, rfl⟩
  by_cases hhead : ∃ head, ZisofsHead vol inode zi head
  · obtain ⟨head, hhead⟩ := hhead
    have hunique : ∀ head', ZisofsHead vol inode zi head' → head' = head := by
      intro head' hhead'
      exact Except.ok.inj (hhead'.read.symm.trans hhead.read)
    obtain ⟨avail, hfirst⟩ := exists_firstShort codecs vol head (inode.lba * vol.blockSize)
      (1 <<< zi.blockSizeLog2) zi.uncompressedSize
    refine ⟨avail, hfirst.le_size, ?_, ?_, ?_⟩
    · rw [hfirst.size_le_iff hbs]
      constructor
      · intro hall head' hhead'
        rw [hunique head' hhead']
        exact hall
      · intro hwhole
        exact hwhole head hhead
    · intro off buf n window hoff h
      have hle := hfirst.le_size
      rcases Nat.lt_or_ge off zi.uncompressedSize with hin | hout
      · obtain ⟨head', data, hhead', hdata, heq⟩ := (readZisofs_eq_ok hvol hinode hzi hin).mp h
        rw [hunique head' hhead'] at hdata
        have hlen := zisofsFrom_length hbs hfirst hoff (by omega) hdata
        obtain ⟨rfl, rfl⟩ := Prod.mk.inj heq
        rw [List.length_nil, Nat.zero_add] at hlen
        exact ⟨by omega, overwrite_length (by omega)⟩
      · obtain ⟨rfl, rfl⟩ := hpast off buf n window hout h
        exact ⟨by omega, rfl⟩
    · intro hlt
      have hsize := hinode.zisofs_lt zi hzi
      have hdata := @zisofsFrom_short _ codecs vol head (inode.lba * vol.blockSize)
        (1 <<< zi.blockSizeLog2) zi.uncompressedSize
        (avail + min [(0 : UInt8)].length (zi.uncompressedSize - avail)) avail []
        (by rw [List.length_singleton]; omega) hlt (by omega) (hfirst.short hlt)
      exact ⟨_, (readZisofs_eq_ok hvol hinode hzi hlt).mpr ⟨head, [], hhead, hdata, rfl⟩⟩
  · -- no read inside the file gets past its head
    refine ⟨zi.uncompressedSize, le_rfl, ?_, ?_, fun hlt => absurd hlt (Nat.lt_irrefl _)⟩
    · refine iff_of_true le_rfl ?_
      intro head h
      exact absurd ⟨head, h⟩ hhead
    · intro off buf n window hoff h
      rcases Nat.lt_or_ge off zi.uncompressedSize with hin | hout
      · obtain ⟨head, -, h, -⟩ := (readZisofs_eq_ok hvol hinode hzi hin).mp h
        exact absurd ⟨head, h⟩ hhead
      · obtain ⟨rfl, rfl⟩ := hpast off buf n window hout h
        exact ⟨by omega, rfl⟩

end Lamfold.Iso9660
