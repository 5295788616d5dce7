import Lamfold.RockRidgeSplit
import Lamfold.StableNodes

/-!
ISO 9660 directories, written and read back. A directory extent is a sequence of
records, with zeros up to the end of a sector in between. A file is recorded in one
record, or in a chain of records of its name, one for each of its extents, all but the
last of which say that more follow; the records of the directory itself and of its
parent may stand anywhere.
-/
namespace Lamfold.Iso9660

open Effects Bytes RockRidge

/-- A directory record. The length of the attributes, the date, and what says in which
volume the extent lies are not read. -/
structure Record where
  attr : UInt8
  lba : ℕ
  lba_lt : lba < 2 ^ 32
  size : ℕ
  size_lt : size < 2 ^ 32
  date : List UInt8
  date_len : date.length = 7
  flags : UInt8
  volume : List UInt8
  volume_len : volume.length = 6
  fi : List UInt8
  su : List UInt8
  fits : 33 + fi.length + su.length < 2 ^ 8

namespace Record

variable (r : Record)

def len : ℕ := 33 + r.fi.length + r.su.length

/-- The fields before the flags. -/
def head : List UInt8 :=
  [.ofNat r.len, r.attr] ++ bothEndian r.lba ++ bothEndian r.size ++ r.date

/-- The fields from the flags to the length of the identifier. -/
def middle : List UInt8 := [r.flags] ++ r.volume ++ [.ofNat r.fi.length]

def encode : List UInt8 := r.head ++ r.middle ++ r.fi ++ r.su

def isDir : Bool := r.flags &&& Dr.flagDirectory ≠ 0

/-- Whether more records of the file follow. -/
def more : Bool := r.flags &&& Dr.flagMultiExtent ≠ 0

def extent : ℕ × ℕ := (r.lba, r.size)

theorem head_length : r.head.length = 25 := by
  simp [head, bothEndian, r.date_len]

theorem middle_length : r.middle.length = 8 := by
  simp [middle, r.volume_len]

theorem encode_length : r.encode.length = r.len := by
  simp only [encode, List.length_append, r.head_length, r.middle_length, len]

theorem len_pos : 0 < r.len := by
  unfold len
  omega

/-- The first byte is the length. -/
theorem encode_first (rest : List UInt8) : (r.encode ++ rest)[0]? = some (.ofNat r.len) := rfl

theorem toNat_len : (UInt8.ofNat r.len).toNat = r.len := UInt8.toNat_ofNat_of_lt' r.fits

theorem toNat_fi_len : (UInt8.ofNat r.fi.length).toNat = r.fi.length := by
  have hfits := r.fits
  have hlt : r.fi.length < 2 ^ 8 := by omega
  exact UInt8.toNat_ofNat_of_lt' hlt

theorem encode_lenFi : r.encode[Dr.lenFi]? = some (.ofNat r.fi.length) := by
  refine @getElem?_of_append _ _ (r.head ++ [r.flags] ++ r.volume) (r.fi ++ r.su) _ _ ?_ ?_
  · simp [encode, middle]
  · simp [r.head_length, r.volume_len, Dr.lenFi]

theorem encode_fi : slice r.encode Dr.fileId r.fi.length = some r.fi := by
  refine slice_of_append (@rfl _ (r.head ++ r.middle ++ r.fi ++ r.su)) ?_ rfl
  simp [r.head_length, r.middle_length, Dr.fileId]

theorem encode_flags : r.encode[Dr.fileFlags]? = some r.flags := by
  refine @getElem?_of_append _ _ r.head (r.volume ++ [.ofNat r.fi.length] ++ r.fi ++ r.su) _ _ ?_ ?_
  · simp [encode, middle]
  · exact r.head_length.symm

theorem encode_lba : leU32 r.encode Dr.extentLbaLe = .ok r.lba := by
  refine @leAt_of_append 4 _ _ _ _ [.ofNat r.len, r.attr]
    (beBytes 4 r.lba ++ bothEndian r.size ++ r.date ++ r.middle ++ r.fi ++ r.su) ?_ rfl r.lba_lt
  simp only [encode, head, bothEndian, List.append_assoc]

theorem encode_size : leU32 r.encode Dr.dataLenLe = .ok r.size := by
  refine @leAt_of_append 4 _ _ _ _ ([.ofNat r.len, r.attr] ++ bothEndian r.lba)
    (beBytes 4 r.size ++ r.date ++ r.middle ++ r.fi ++ r.su) ?_ ?_ r.size_lt
  · simp only [encode, head, bothEndian, List.append_assoc]
  · simp [bothEndian, Dr.dataLenLe]

/-- A record is found where it was written. -/
theorem recordAt_encode (pre post : List UInt8) :
    recordAt (pre ++ (r.encode ++ post)) pre.length r.len = .ok (r.encode, r.fi) := by
  have hrecord : slice (pre ++ (r.encode ++ post)) pre.length r.len = some r.encode :=
    slice_of_append (List.append_assoc ..).symm rfl r.encode_length.symm
  unfold recordAt
  rw [hrecord, okOr, ok_bind, r.encode_lenFi, okOr, ok_bind, r.toNat_fi_len, r.encode_fi]
  rfl

theorem firstFi_encode (pre post : List UInt8) :
    firstFi (pre ++ (r.encode ++ post)) pre.length = .ok r.fi := by
  have hlen : (pre ++ (r.encode ++ post))[pre.length]? = some (.ofNat r.len) := by
    rw [List.getElem?_append_right (Nat.le_refl _), Nat.sub_self]
    exact r.encode_first post
  unfold firstFi
  rw [hlen, okOr, ok_bind, r.toNat_len, r.recordAt_encode]
  rfl

/-- What a record starts, when no file is open. -/
def start (vol : Volume) (dirLba pos : ℕ) : Outcome (Str × Inode) :=
  newEntry vol dirLba pos r.encode r.fi r.isDir r.lba r.size

theorem readRecord_dot {vol : Volume} {dirLba pos : ℕ} {buf : List UInt8}
    {pending : Option (Str × Inode)} (h : isDot r.fi = true) :
    readRecord vol dirLba buf pos r.encode r.fi pending = .ok ([], pending) := if_pos h

theorem readRecord_start {vol : Volume} {dirLba pos : ℕ} {buf : List UInt8}
    (h : isDot r.fi = false) :
    readRecord vol dirLba buf pos r.encode r.fi none = (do
      let entry ← r.start vol dirLba pos
      return if r.more = true ∧ r.isDir = false then ([], some entry) else ([entry], none)) := by
  have hmore : (r.flags &&& Dr.flagMultiExtent ≠ 0 ∧ ¬r.flags &&& Dr.flagDirectory ≠ 0) ↔
      r.more = true ∧ r.isDir = false := by
    simp [more, isDir]
  unfold readRecord
  rw [if_neg (by simp [h]), r.encode_flags, okOr, lift_ok_bind, r.encode_lba, lift_ok_bind,
    r.encode_size, lift_ok_bind]
  dsimp only
  simp only [hmore]
  rfl

theorem readRecord_next {vol : Volume} {dirLba pos : ℕ} {buf : List UInt8} {first : Str × Inode}
    (h : isDot r.fi = false) :
    readRecord vol dirLba buf pos r.encode r.fi (some first) = (do
      let inode ← addExtent buf r.fi r.isDir r.lba r.size first.2
      return if r.more = true then ([], some (first.1, inode)) else ([(first.1, inode)], none)) := by
  have hmore : r.flags &&& Dr.flagMultiExtent ≠ 0 ↔ r.more = true := by simp [more]
  unfold readRecord
  rw [if_neg (by simp [h]), r.encode_flags, okOr, lift_ok_bind, r.encode_lba, lift_ok_bind,
    r.encode_size, lift_ok_bind]
  dsimp only
  simp only [hmore]
  rfl

end Record

/-- The bytes from `pos` on of a directory, and the records in them with their places,
those of the directory itself and of its parent left out. -/
inductive Laid (blockSize : ℕ) : ℕ → List UInt8 → List (ℕ × Record) → Prop
  | done {pos n : ℕ} (hend : pos + n ≤ (pos / blockSize + 1) * blockSize) :
      Laid blockSize pos (List.replicate n 0) []
  | padding {pos n : ℕ} {rest : List UInt8} {records : List (ℕ × Record)} (hpos : 0 < n)
      (hnext : pos + n = (pos / blockSize + 1) * blockSize)
      (hrest : Laid blockSize (pos + n) rest records) :
      Laid blockSize pos (List.replicate n 0 ++ rest) records
  | dot {pos : ℕ} {r : Record} {rest : List UInt8} {records : List (ℕ × Record)}
      (hdot : isDot r.fi = true) (hrest : Laid blockSize (pos + r.len) rest records) :
      Laid blockSize pos (r.encode ++ rest) records
  | record {pos : ℕ} {r : Record} {rest : List UInt8} {records : List (ℕ × Record)}
      (hdot : isDot r.fi = false) (hrest : Laid blockSize (pos + r.len) rest records) :
      Laid blockSize pos (r.encode ++ rest) ((pos, r) :: records)

/-- What the records of a directory are read to, without the bytes around them. -/
def scanRecords (vol : Volume) (dirLba : ℕ) (buf : List UInt8) :
    List (ℕ × Record) → Option (Str × Inode) → Outcome (List (Str × Inode))
  | [], pending => finishScan pending
  | (pos, r) :: records, pending => do
    let (done, pending) ← readRecord vol dirLba buf pos r.encode r.fi pending
    let rest ← scanRecords vol dirLba buf records pending
    return done ++ rest

section Scan

variable {vol : Volume} {dirLba : ℕ}

/-- Padding is skipped up to the next sector. -/
theorem entriesFrom_padding {buf : List UInt8} {pos : ℕ} {pending : Option (Str × Inode)}
    (hzero : buf[pos]? = some 0) :
    entriesFrom vol dirLba buf pending pos =
      entriesFrom vol dirLba buf pending ((pos / vol.blockSize + 1) * vol.blockSize) := by
  have hpos : pos < buf.length := (List.getElem?_eq_some_iff.mp hzero).1
  have hnext : ¬(pos / vol.blockSize + 1) * vol.blockSize ≤ pos := by
    rw [not_le, ← Nat.div_lt_iff_lt_mul vol.blockSize_pos]
    exact Nat.lt_succ_self _
  have hlen : (0 : UInt8).toNat = 0 := rfl
  rw [entriesFrom, if_pos hpos, hzero, unwrap, lift_ok_bind, dif_pos hlen]
  exact if_neg hnext

theorem entriesFrom_end {buf : List UInt8} {pos : ℕ} {pending : Option (Str × Inode)}
    (h : buf.length ≤ pos) : entriesFrom vol dirLba buf pending pos = finishScan pending := by
  rw [entriesFrom, if_neg (Nat.not_lt.mpr h), lift_self]

/-- A record is read, and what follows it from its end on. -/
theorem entriesFrom_record (r : Record) (pre post : List UInt8) (pending : Option (Str × Inode)) :
    entriesFrom vol dirLba (pre ++ (r.encode ++ post)) pending pre.length = (do
      let (done, pending) ←
        readRecord vol dirLba (pre ++ (r.encode ++ post)) pre.length r.encode r.fi pending
      let rest ← entriesFrom vol dirLba (pre ++ (r.encode ++ post)) pending (pre.length + r.len)
      return done ++ rest) := by
  have hpos := r.len_pos
  have hin : pre.length < (pre ++ (r.encode ++ post)).length := by
    simp only [List.length_append, r.encode_length]
    omega
  have hfirst : (pre ++ (r.encode ++ post))[pre.length]? = some (.ofNat r.len) := by
    rw [List.getElem?_append_right (Nat.le_refl _), Nat.sub_self]
    exact r.encode_first post
  have hnonzero : ¬(UInt8.ofNat r.len).toNat = 0 := by
    rw [r.toNat_len]
    omega
  rw [entriesFrom, if_pos hin, hfirst, unwrap, lift_ok_bind, dif_neg hnonzero, r.toNat_len,
    r.recordAt_encode, lift_ok_bind]

/-- Reading a directory is reading its records. -/
theorem entriesFrom_laid {pos : ℕ} {rest : List UInt8} {records : List (ℕ × Record)}
    (h : Laid vol.blockSize pos rest records) {pre : List UInt8} (hpre : pre.length = pos)
    (pending : Option (Str × Inode)) :
    entriesFrom vol dirLba (pre ++ rest) pending pos =
      scanRecords vol dirLba (pre ++ rest) records pending := by
  induction h generalizing pre pending with
  | @done pos n hend =>
    rw [scanRecords]
    by_cases hn : n = 0
    · apply entriesFrom_end
      simp [hn, hpre]
    · have hzero : (pre ++ List.replicate n (0 : UInt8))[pos]? = some 0 := by
        rw [List.getElem?_append_right (by omega)]
        exact List.getElem?_replicate_of_lt (by omega)
      rw [entriesFrom_padding hzero]
      apply entriesFrom_end
      rw [List.length_append, List.length_replicate, hpre]
      exact hend
  | @padding pos n rest records hpos hnext hrest ih =>
    have hzero : (pre ++ (List.replicate n (0 : UInt8) ++ rest))[pos]? = some 0 := by
      rw [List.getElem?_append_right (by omega),
        List.getElem?_append_left (by rw [List.length_replicate]; omega)]
      exact List.getElem?_replicate_of_lt (by omega)
    rw [entriesFrom_padding hzero, ← hnext, ← List.append_assoc]
    apply ih
    rw [List.length_append, List.length_replicate, hpre]
  | @dot pos r rest records hdot hrest ih =>
    obtain rfl := hpre
    have hnext : (pre ++ r.encode).length = pre.length + r.len := by
      rw [List.length_append, r.encode_length]
    have hskip := ih hnext pending
    rw [List.append_assoc] at hskip
    rw [entriesFrom_record, r.readRecord_dot hdot, ok_bind]
    dsimp only
    rw [hskip]
    cases scanRecords vol dirLba (pre ++ (r.encode ++ rest)) records pending with
    | error e => rfl
    | ok entries => rfl
  | @record pos r rest records hdot hrest ih =>
    obtain rfl := hpre
    have hnext : (pre ++ r.encode).length = pre.length + r.len := by
      rw [List.length_append, r.encode_length]
    have hskip : ∀ pending, entriesFrom vol dirLba (pre ++ (r.encode ++ rest)) pending
        (pre.length + r.len) = scanRecords vol dirLba (pre ++ (r.encode ++ rest)) records pending := by
      intro pending
      rw [← List.append_assoc]
      exact ih hnext pending
    rw [entriesFrom_record, scanRecords]
    simp only [hskip]

/-- Each record is at its place. -/
theorem firstFi_laid {blockSize pos : ℕ} {rest : List UInt8} {records : List (ℕ × Record)}
    (h : Laid blockSize pos rest records) {pre : List UInt8} (hpre : pre.length = pos) :
    ∀ p ∈ records, firstFi (pre ++ rest) p.1 = .ok p.2.fi := by
  induction h generalizing pre with
  | done hend => exact List.forall_mem_nil _
  | @padding pos n rest records hpos hnext hrest ih =>
    rw [← List.append_assoc]
    apply ih
    rw [List.length_append, List.length_replicate, hpre]
  | @dot pos r rest records hdot hrest ih =>
    rw [← List.append_assoc]
    apply ih
    rw [List.length_append, r.encode_length, hpre]
  | @record pos r rest records hdot hrest ih =>
    obtain rfl := hpre
    refine List.forall_mem_cons.mpr ⟨r.firstFi_encode pre rest, ?_⟩
    rw [← List.append_assoc]
    apply ih
    rw [List.length_append, r.encode_length]

theorem not_dot_of_laid {blockSize pos : ℕ} {rest : List UInt8} {records : List (ℕ × Record)}
    (h : Laid blockSize pos rest records) : ∀ p ∈ records, isDot p.2.fi = false := by
  induction h with
  | done hend => exact List.forall_mem_nil _
  | padding hpos hnext hrest ih => exact ih
  | dot hdot hrest ih => exact ih
  | record hdot hrest ih => exact List.forall_mem_cons.mpr ⟨hdot, ih⟩

end Scan

/-- Records that go on with the file of an identifier, up to its last one. -/
inductive GoesOn (fi : List UInt8) : List (ℕ × Record) → Prop
  | last {p : ℕ × Record} (hfi : p.2.fi = fi) (hfile : p.2.isDir = false)
      (hlast : p.2.more = false) : GoesOn fi [p]
  | next {p : ℕ × Record} {ps : List (ℕ × Record)} (hfi : p.2.fi = fi) (hfile : p.2.isDir = false)
      (hmore : p.2.more = true) (hrest : GoesOn fi ps) : GoesOn fi (p :: ps)

/-- The records of a file, or the one of a directory. -/
inductive IsChain : List (ℕ × Record) → Prop
  | single {p : ℕ × Record} (h : p.2.more = false ∨ p.2.isDir = true) : IsChain [p]
  | multi {p : ℕ × Record} {ps : List (ℕ × Record)} (hfile : p.2.isDir = false)
      (hmore : p.2.more = true) (hrest : GoesOn p.2.fi ps) : IsChain (p :: ps)

/-- Records that go on with a file up to where it breaks: a record of another name or of a
directory stands in place of the next one, or there is none. -/
inductive BreaksOff (fi : List UInt8) : List (ℕ × Record) → Prop
  | missing : BreaksOff fi []
  | broken {p : ℕ × Record} {ps : List (ℕ × Record)} (h : p.2.fi ≠ fi ∨ p.2.isDir = true) :
      BreaksOff fi (p :: ps)
  | next {p : ℕ × Record} {ps : List (ℕ × Record)} (hfi : p.2.fi = fi) (hfile : p.2.isDir = false)
      (hmore : p.2.more = true) (hrest : BreaksOff fi ps) : BreaksOff fi (p :: ps)

def extentsOf (chain : List (ℕ × Record)) : List (ℕ × ℕ) := chain.map fun p => p.2.extent

/-- A node with more extents. -/
def Inode.extended (inode : Inode) (es : List (ℕ × ℕ)) : Inode :=
  { inode with extents := inode.extents ++ es, size := inode.size + totalLen Prod.snd es }

theorem Inode.extended_cons (inode : Inode) (e : ℕ × ℕ) (es : List (ℕ × ℕ)) :
    (inode.extended [e]).extended es = inode.extended (e :: es) := by
  simp [extended, Nat.add_assoc]

/-- A node with the extents of a chain, and the sum of their lengths as its size. -/
def Inode.gathered (inode : Inode) (chain : List (ℕ × Record)) : Inode :=
  { inode with extents := extentsOf chain, size := totalLen Prod.snd (extentsOf chain) }

/-- The entry of a chain has the name of its first record, and the extents of all. -/
def ChainEntry (vol : Volume) (dirLba : ℕ) (chain : List (ℕ × Record)) (entry : Str × Inode) :
    Prop :=
  ∃ p ps inode, chain = p :: ps ∧ p.2.start vol dirLba p.1 = .ok (entry.1, inode) ∧
    entry.2 = inode.gathered chain

section Chains

variable {vol : Volume} {dirLba : ℕ} {buf : List UInt8}

theorem addExtent_same {r : Record} {inode : Inode} (hfirst : firstFi buf inode.key.2 = .ok r.fi)
    (hfile : r.isDir = false) (hcount : inode.extents.length < maxExtents)
    (hsize : inode.size ≤ inode.extents.length * 2 ^ 32) :
    addExtent buf r.fi r.isDir r.lba r.size inode =
      .ok (inode.extended [r.extent]) := by
  have hlt := r.size_lt
  have hsum : inode.size + r.size < 2 ^ 64 := by
    have hmax : maxExtents = 4096 := rfl
    omega
  have htotal : u64 (inode.size + r.size) = .ok (inode.size + r.size) := fits_eq_ok.mpr ⟨hsum, rfl⟩
  unfold addExtent
  rw [if_neg (by simp [hfile]), hfirst, ok_bind, if_neg (not_not.mpr rfl),
    if_neg (Nat.not_le.mpr hcount), htotal]
  rfl

theorem addExtent_broken {r : Record} {fi : List UInt8} {inode inode' : Inode}
    (hfirst : firstFi buf inode.key.2 = .ok fi) (h : r.fi ≠ fi ∨ r.isDir = true) :
    addExtent buf r.fi r.isDir r.lba r.size inode ≠ .ok inode' := by
  intro hadd
  obtain ⟨hfile, hadd⟩ := ite_error_eq_ok.mp hadd
  rw [hfirst, ok_bind] at hadd
  obtain ⟨hsame, -⟩ := ite_error_eq_ok.mp hadd
  exact h.elim (fun hne => hsame hne) fun hdir => hfile hdir

/-- The open file is completed by the records that go on with it. -/
theorem scanRecords_goesOn {fi : List UInt8} {ps : List (ℕ × Record)} (h : GoesOn fi ps)
    (hdot : ∀ p ∈ ps, isDot p.2.fi = false) (records : List (ℕ × Record)) {name : Str}
    {inode : Inode} (hfirst : firstFi buf inode.key.2 = .ok fi)
    (hcount : inode.extents.length + ps.length ≤ maxExtents)
    (hsize : inode.size ≤ inode.extents.length * 2 ^ 32) :
    scanRecords vol dirLba buf (ps ++ records) (some (name, inode)) = (do
      let rest ← scanRecords vol dirLba buf records none
      return (name, inode.extended (extentsOf ps)) :: rest) := by
  induction h generalizing inode with
  | @last p hfi hfile hlast =>
    subst hfi
    have hp := hdot p List.mem_cons_self
    rw [List.length_singleton] at hcount
    have hadd := addExtent_same hfirst hfile (by omega) hsize
    rw [List.singleton_append, scanRecords, p.2.readRecord_next hp, hadd, ok_bind,
      if_neg (by simp [hlast])]
    rfl
  | @next p ps hfi hfile hmore hrest ih =>
    subst hfi
    have hp := hdot p List.mem_cons_self
    have hlt := p.2.size_lt
    rw [List.length_cons] at hcount
    have hadd := addExtent_same hfirst hfile (by omega) hsize
    have hcount' : (inode.extended [p.2.extent]).extents.length + ps.length ≤ maxExtents := by
      simp only [Inode.extended, List.length_append, List.length_singleton]
      omega
    have hsize' : (inode.extended [p.2.extent]).size ≤
        (inode.extended [p.2.extent]).extents.length * 2 ^ 32 := by
      simp only [Inode.extended, List.length_append, List.length_singleton, totalLen_cons,
        totalLen_nil, Record.extent]
      omega
    have hfirst' : firstFi buf (inode.extended [p.2.extent]).key.2 = .ok p.2.fi := hfirst
    have hnext := ih (fun q hq => hdot q (List.mem_cons_of_mem _ hq)) hfirst' hcount' hsize'
    rw [Inode.extended_cons] at hnext
    rw [List.cons_append, scanRecords, p.2.readRecord_next hp, hadd, ok_bind, if_pos hmore]
    change (do
      let rest ← scanRecords vol dirLba buf (ps ++ records)
        (some (name, inode.extended [p.2.extent]))
      return [] ++ rest) = _
    rw [hnext]
    cases scanRecords vol dirLba buf records none with
    | error e => rfl
    | ok rest => rfl

theorem start_eq_ok {r : Record} {pos : ℕ} {entry : Str × Inode}
    (h : r.start vol dirLba pos = .ok entry) :
    entry.2.key = (dirLba, pos) ∧ entry.2.extents = [r.extent] ∧ entry.2.size = r.size := by
  obtain ⟨name, -, h⟩ := bind_eq_ok.mp h
  obtain ⟨rr, -, h⟩ := bind_eq_ok.mp h
  obtain rfl := Except.ok.inj h
  exact ⟨rfl, rfl, rfl⟩

theorem Inode.gathered_single {inode : Inode} {p : ℕ × Record}
    (hextents : inode.extents = [p.2.extent])
    (hsize : inode.size = p.2.size) : inode.gathered [p] = inode := by
  have hsum : totalLen Prod.snd (extentsOf [p]) = p.2.size := Nat.add_zero _
  obtain ⟨key, lba, size, extents, kind, linkTarget, zisofs⟩ := inode
  dsimp only at hextents hsize
  subst hextents hsize
  rw [gathered, hsum]
  rfl

/-- A chain is read to one entry. -/
theorem scanRecords_chain {chain : List (ℕ × Record)} (h : IsChain chain)
    (hcount : chain.length ≤ maxExtents) (hdot : ∀ p ∈ chain, isDot p.2.fi = false)
    (hplace : ∀ p ∈ chain, firstFi buf p.1 = .ok p.2.fi) (records : List (ℕ × Record))
    {entry : Str × Inode} (hentry : ChainEntry vol dirLba chain entry) :
    scanRecords vol dirLba buf (chain ++ records) none = (do
      let rest ← scanRecords vol dirLba buf records none
      return entry :: rest) := by
  obtain ⟨p, ps, inode, rfl, hstart, hinode⟩ := hentry
  obtain ⟨hkey, hextents, hsize⟩ := start_eq_ok hstart
  have hp := hdot p List.mem_cons_self
  have hgathered : inode.extended (extentsOf ps) = inode.gathered (p :: ps) := by
    simp only [Inode.extended, Inode.gathered, extentsOf, List.map_cons, totalLen_cons]
    simp only [show inode.extents = _ from hextents, show inode.size = _ from hsize]
    rfl
  have hread := @Record.readRecord_start p.2 vol dirLba p.1 buf hp
  rw [hstart, ok_bind] at hread
  rw [List.cons_append, scanRecords, hread]
  cases h with
  | single h =>
    have hclosed : ¬(p.2.more = true ∧ p.2.isDir = false) := by
      rintro ⟨hmore, hfile⟩
      simp [hmore, hfile] at h
    have hsame : inode.gathered [p] = inode := Inode.gathered_single hextents hsize
    rw [if_neg hclosed, ← hsame, ← hinode]
    rfl
  | multi hfile hmore hrest =>
    have hfirst : firstFi buf inode.key.2 = .ok p.2.fi := by
      rw [show inode.key = _ from hkey]
      exact hplace p List.mem_cons_self
    rw [List.length_cons] at hcount
    have hone : inode.extents.length = 1 := congrArg List.length hextents
    have hlt := p.2.size_lt
    have hsize' : inode.size ≤ inode.extents.length * 2 ^ 32 := by
      rw [show inode.size = _ from hsize]
      omega
    have hnext := @scanRecords_goesOn vol dirLba buf _ _ hrest
      (fun q hq => hdot q (List.mem_cons_of_mem _ hq)) records entry.1 _ hfirst (by omega) hsize'
    rw [if_pos ⟨hmore, hfile⟩]
    change (do
      let rest ← scanRecords vol dirLba buf (ps ++ records) (some (entry.1, inode))
      return [] ++ rest) = _
    rw [hnext, hgathered, ← hinode]
    cases scanRecords vol dirLba buf records none with
    | error e => rfl
    | ok rest => rfl

/-- Chains are read to an entry each. -/
theorem scanRecords_chains {chains : List (List (ℕ × Record))} {entries : List (Str × Inode)}
    (h : List.Forall₂ (ChainEntry vol dirLba) chains entries)
    (hchains : ∀ c ∈ chains, IsChain c ∧ c.length ≤ maxExtents)
    (hdot : ∀ p ∈ chains.flatten, isDot p.2.fi = false)
    (hplace : ∀ p ∈ chains.flatten, firstFi buf p.1 = .ok p.2.fi) :
    scanRecords vol dirLba buf chains.flatten none = .ok entries := by
  induction h with
  | nil => rfl
  | @cons chain entry chains entries hentry hrest ih =>
    rw [List.flatten_cons] at hdot hplace ⊢
    obtain ⟨hdotFirst, hdotRest⟩ := List.forall_mem_append.mp hdot
    obtain ⟨hplaceFirst, hplaceRest⟩ := List.forall_mem_append.mp hplace
    obtain ⟨hchain, hcount⟩ := hchains chain List.mem_cons_self
    have hothers := ih (fun c hc => hchains c (List.mem_cons_of_mem _ hc)) hdotRest hplaceRest
    rw [scanRecords_chain hchain hcount hdotFirst hplaceFirst _ hentry, hothers]
    rfl

/-- What follows a record is read when it is. -/
theorem scanRecords_rest {p : ℕ × Record} {ps : List (ℕ × Record)}
    {pending : Option (Str × Inode)} {entries : List (Str × Inode)}
    (h : scanRecords vol dirLba buf (p :: ps) pending = .ok entries) :
    ∃ done pending' rest,
      readRecord vol dirLba buf p.1 p.2.encode p.2.fi pending = .ok (done, pending') ∧
        scanRecords vol dirLba buf ps pending' = .ok rest := by
  obtain ⟨⟨done, pending'⟩, hread, h⟩ := bind_eq_ok.mp h
  obtain ⟨rest, hrest, -⟩ := bind_eq_ok.mp h
  exact ⟨done, pending', rest, hread, hrest⟩

/-- A record of the open file leaves it open, under its key, or completes it. -/
theorem readRecord_next_ok {r : Record} {pos : ℕ} (hdot : isDot r.fi = false) {first : Str × Inode}
    {done : List (Str × Inode)} {pending : Option (Str × Inode)}
    (h : readRecord vol dirLba buf pos r.encode r.fi (some first) = .ok (done, pending)) :
    ∃ inode, addExtent buf r.fi r.isDir r.lba r.size first.2 = .ok inode ∧
      pending = if r.more = true then some (first.1, inode) else none := by
  rw [r.readRecord_next hdot] at h
  obtain ⟨inode, hinode, h⟩ := bind_eq_ok.mp h
  refine ⟨inode, hinode, ?_⟩
  have h := Except.ok.inj h
  split at h
  · rename_i hmore
    rw [if_pos hmore]
    exact (Prod.mk.inj h).2.symm
  · rename_i hmore
    rw [if_neg hmore]
    exact (Prod.mk.inj h).2.symm

theorem scanRecords_goesOn_rest {fi : List UInt8} {ps records : List (ℕ × Record)}
    (h : GoesOn fi ps) (hdot : ∀ p ∈ ps, isDot p.2.fi = false) {first : Str × Inode}
    {entries : List (Str × Inode)}
    (hscan : scanRecords vol dirLba buf (ps ++ records) (some first) = .ok entries) :
    ∃ rest, scanRecords vol dirLba buf records none = .ok rest := by
  induction h generalizing first entries with
  | @last p hfi hfile hlast =>
    obtain ⟨done, pending, rest, hread, hrest⟩ := scanRecords_rest hscan
    obtain ⟨inode, -, rfl⟩ := readRecord_next_ok (hdot p List.mem_cons_self) hread
    rw [if_neg (by simp [hlast])] at hrest
    exact ⟨rest, hrest⟩
  | @next p ps hfi hfile hmore _ ih =>
    obtain ⟨done, pending, rest, hread, hrest⟩ := scanRecords_rest hscan
    obtain ⟨inode, -, rfl⟩ := readRecord_next_ok (hdot p List.mem_cons_self) hread
    rw [if_pos hmore] at hrest
    exact ih (fun q hq => hdot q (List.mem_cons_of_mem _ hq)) hrest

/-- A record that starts a file leaves it open when more follow. -/
theorem readRecord_start_ok {r : Record} {pos : ℕ} (hdot : isDot r.fi = false)
    {done : List (Str × Inode)} {pending : Option (Str × Inode)}
    (h : readRecord vol dirLba buf pos r.encode r.fi none = .ok (done, pending)) :
    ∃ entry, r.start vol dirLba pos = .ok entry ∧
      pending = if r.more = true ∧ r.isDir = false then some entry else none := by
  rw [r.readRecord_start hdot] at h
  obtain ⟨entry, hentry, h⟩ := bind_eq_ok.mp h
  refine ⟨entry, hentry, ?_⟩
  have h := Except.ok.inj h
  split at h
  · rename_i hmore
    rw [if_pos hmore]
    exact (Prod.mk.inj h).2.symm
  · rename_i hmore
    rw [if_neg hmore]
    exact (Prod.mk.inj h).2.symm

theorem scanRecords_chain_rest {chain records : List (ℕ × Record)} (h : IsChain chain)
    (hdot : ∀ p ∈ chain, isDot p.2.fi = false) {entries : List (Str × Inode)}
    (hscan : scanRecords vol dirLba buf (chain ++ records) none = .ok entries) :
    ∃ rest, scanRecords vol dirLba buf records none = .ok rest := by
  cases h with
  | @single p h =>
    obtain ⟨done, pending, rest, hread, hrest⟩ := scanRecords_rest hscan
    obtain ⟨entry, -, rfl⟩ := readRecord_start_ok (hdot p List.mem_cons_self) hread
    have hclosed : ¬(p.2.more = true ∧ p.2.isDir = false) := by
      rintro ⟨hmore, hfile⟩
      simp [hmore, hfile] at h
    rw [if_neg hclosed] at hrest
    exact ⟨rest, hrest⟩
  | @multi p ps hfile hmore hgoes =>
    obtain ⟨done, pending, rest, hread, hrest⟩ := scanRecords_rest hscan
    obtain ⟨entry, -, rfl⟩ := readRecord_start_ok (hdot p List.mem_cons_self) hread
    rw [if_pos ⟨hmore, hfile⟩] at hrest
    exact scanRecords_goesOn_rest hgoes (fun q hq => hdot q (List.mem_cons_of_mem _ hq)) hrest

/-- Of chains that are read, each has an entry. -/
theorem scanRecords_entries {chains : List (List (ℕ × Record))} (hchains : ∀ c ∈ chains, IsChain c)
    (hdot : ∀ p ∈ chains.flatten, isDot p.2.fi = false) {found : List (Str × Inode)}
    (hscan : scanRecords vol dirLba buf chains.flatten none = .ok found) :
    ∃ entries, List.Forall₂ (ChainEntry vol dirLba) chains entries := by
  induction chains generalizing found with
  | nil => exact ⟨[], .nil⟩
  | cons chain chains ih =>
    rw [List.flatten_cons] at hscan hdot
    obtain ⟨hdotFirst, hdotRest⟩ := List.forall_mem_append.mp hdot
    have hchain := hchains chain List.mem_cons_self
    obtain ⟨rest, hrest⟩ := scanRecords_chain_rest hchain hdotFirst hscan
    obtain ⟨entries, hentries⟩ :=
      ih (fun c hc => hchains c (List.mem_cons_of_mem _ hc)) hdotRest hrest
    obtain ⟨p, ps, rfl⟩ : ∃ p ps, chain = p :: ps := by
      cases hchain with
      | single h => exact ⟨_, _, rfl⟩
      | multi hfile hmore h => exact ⟨_, _, rfl⟩
    obtain ⟨done, pending, rest', hread, -⟩ := scanRecords_rest hscan
    obtain ⟨⟨name, inode⟩, hstart, -⟩ := readRecord_start_ok (hdotFirst p List.mem_cons_self) hread
    exact ⟨(name, inode.gathered (p :: ps)) :: entries, .cons ⟨p, ps, inode, rfl, hstart, rfl⟩ hentries⟩

theorem scanRecords_breaksOff {fi : List UInt8} {ps : List (ℕ × Record)} (h : BreaksOff fi ps)
    (hdot : ∀ p ∈ ps, isDot p.2.fi = false) {first : Str × Inode}
    (hfirst : firstFi buf first.2.key.2 = .ok fi) {entries : List (Str × Inode)} :
    scanRecords vol dirLba buf ps (some first) ≠ .ok entries := by
  induction h generalizing first entries with
  | missing => exact fail_ne_ok _ _
  | @broken p ps h =>
    intro hscan
    obtain ⟨done, pending, rest, hread, -⟩ := scanRecords_rest hscan
    obtain ⟨inode, hadd, -⟩ := readRecord_next_ok (hdot p List.mem_cons_self) hread
    exact addExtent_broken hfirst h hadd
  | @next p ps hfi hfile hmore _ ih =>
    intro hscan
    obtain ⟨done, pending, rest, hread, hrest⟩ := scanRecords_rest hscan
    obtain ⟨inode, hadd, rfl⟩ := readRecord_next_ok (hdot p List.mem_cons_self) hread
    rw [if_pos hmore] at hrest
    rw [← addExtent_key hadd] at hfirst
    exact ih (fun q hq => hdot q (List.mem_cons_of_mem _ hq)) hfirst hrest

/-- A file that breaks is never read, whatever stands before it. -/
theorem scanRecords_broken {chains : List (List (ℕ × Record))} {p : ℕ × Record}
    {ps : List (ℕ × Record)} (hchains : ∀ c ∈ chains, IsChain c) (hfile : p.2.isDir = false)
    (hmore : p.2.more = true) (hbreaks : BreaksOff p.2.fi ps)
    (hdot : ∀ q ∈ chains.flatten ++ p :: ps, isDot q.2.fi = false)
    (hplace : firstFi buf p.1 = .ok p.2.fi) {entries : List (Str × Inode)} :
    scanRecords vol dirLba buf (chains.flatten ++ p :: ps) none ≠ .ok entries := by
  intro hscan
  induction chains generalizing entries with
  | nil =>
    obtain ⟨done, pending, rest, hread, hrest⟩ := scanRecords_rest hscan
    obtain ⟨entry, hentry, rfl⟩ := readRecord_start_ok (hdot p List.mem_cons_self) hread
    rw [if_pos ⟨hmore, hfile⟩] at hrest
    have hkey : entry.2.key.2 = p.1 := congrArg Prod.snd (start_eq_ok hentry).1
    rw [← hkey] at hplace
    exact scanRecords_breaksOff hbreaks (fun q hq => hdot q (List.mem_cons_of_mem _ hq)) hplace hrest
  | cons chain chains ih =>
    rw [List.flatten_cons, List.append_assoc] at hscan hdot
    obtain ⟨hdotFirst, hdotRest⟩ := List.forall_mem_append.mp hdot
    obtain ⟨rest, hrest⟩ :=
      scanRecords_chain_rest (hchains chain List.mem_cons_self) hdotFirst hscan
    exact ih (fun c hc => hchains c (List.mem_cons_of_mem _ hc)) hdotRest hrest

end Chains

section Listings

variable {vol : Volume} {dir : Inode} {buf : List UInt8} {records : List (ℕ × Record)}

theorem forEachEntry_laid (hread : readDirExtent vol.src vol.blockSize dir = .ok buf)
    (hlaid : Laid vol.blockSize 0 buf records) :
    forEachEntry vol dir = scanRecords vol dir.lba buf records none := by
  have hscan := @entriesFrom_laid vol dir.lba _ _ _ hlaid [] rfl none
  unfold forEachEntry
  rw [hread, ok_bind]
  exact hscan

/-- A directory of chains has an entry for each of them. -/
theorem forEachEntry_chains {chains : List (List (ℕ × Record))} {entries : List (Str × Inode)}
    (hread : readDirExtent vol.src vol.blockSize dir = .ok buf)
    (hlaid : Laid vol.blockSize 0 buf chains.flatten)
    (hchains : ∀ c ∈ chains, IsChain c ∧ c.length ≤ maxExtents)
    (hentries : List.Forall₂ (ChainEntry vol dir.lba) chains entries) :
    forEachEntry vol dir = .ok entries := by
  rw [forEachEntry_laid hread hlaid]
  have hplace := @firstFi_laid _ _ _ _ hlaid [] rfl
  exact scanRecords_chains hentries hchains (not_dot_of_laid hlaid) hplace

/-- A directory of chains is listed only when the first record of each can be read. -/
theorem exists_entries {chains : List (List (ℕ × Record))} {found : List (Str × Inode)}
    (hread : readDirExtent vol.src vol.blockSize dir = .ok buf)
    (hlaid : Laid vol.blockSize 0 buf chains.flatten) (hchains : ∀ c ∈ chains, IsChain c)
    (hfound : forEachEntry vol dir = .ok found) :
    ∃ entries, List.Forall₂ (ChainEntry vol dir.lba) chains entries := by
  rw [forEachEntry_laid hread hlaid] at hfound
  exact scanRecords_entries hchains (not_dot_of_laid hlaid) hfound

/-- A directory in which a file breaks is not listed. -/
theorem forEachEntry_broken {chains : List (List (ℕ × Record))} {p : ℕ × Record}
    {ps : List (ℕ × Record)} (hread : readDirExtent vol.src vol.blockSize dir = .ok buf)
    (hlaid : Laid vol.blockSize 0 buf (chains.flatten ++ p :: ps))
    (hchains : ∀ c ∈ chains, IsChain c) (hfile : p.2.isDir = false) (hmore : p.2.more = true)
    (hbreaks : BreaksOff p.2.fi ps) {entries : List (Str × Inode)} :
    forEachEntry vol dir ≠ .ok entries := by
  rw [forEachEntry_laid hread hlaid]
  have hplace := @firstFi_laid _ _ _ _ hlaid [] rfl p (List.mem_append_right _ List.mem_cons_self)
  exact scanRecords_broken hchains hfile hmore hbreaks (not_dot_of_laid hlaid) hplace

end Listings

end Lamfold.Iso9660
