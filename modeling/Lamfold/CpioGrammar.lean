import Lamfold.CpioTree

/-!
The grammar of newc and CRC archives, and that the parser accepts exactly it.
An archive is any number of records and a trailer; a chain is archives at
offsets divisible by 4 with zeros between them.
-/
namespace Lamfold.Cpio

open Effects Bytes Utf8 Streams

/-- The number that hex digits stand for, most significant first. -/
def hexValue (digits : List UInt8) : Option ℕ :=
  (digits.mapM toDigit).map fun values => values.foldl (fun acc v => 16 * acc + v) 0

/-- Header field `i` of the header at `start`. -/
def field (x : List UInt8) (start i : ℕ) : Option ℕ :=
  (slice x (start + 6 + i * 8) 8).bind hexValue

def nameBytes (x : List UInt8) (r : Record) : List UInt8 := (x.drop r.name.1).take r.name.2

def byteSum (data : List UInt8) : ℕ := (data.map UInt8.toNat).sum

/-- `r` is the record whose header is at `start`; the next one starts at `next`. -/
structure IsRecord (x : List UInt8) (start : ℕ) (crc : Bool) (r : Record) (next : ℕ) : Prop where
  magic : slice x start 6 = some (if crc then crcMagic else newcMagic)
  ino : field x start 0 = some r.inode.ino
  mode : field x start 1 = some r.mode
  nlink : field x start 4 = some r.nlink
  filesize : field x start 6 = some r.data.2
  devmajor : field x start 7 = some r.inode.devmajor
  devminor : field x start 8 = some r.inode.devminor
  /-- The name's last byte is a NUL that the recorded size counts. -/
  namesize : field x start 11 = some (r.name.2 + 1)
  check : ∃ sum, field x start 12 = some sum ∧ (crc → r.mode &&& sIfmt = sIfreg →
    sum = byteSum ((x.drop r.data.1).take r.data.2) % 2 ^ 32)
  name_start : r.name.1 = start + newcHeader
  name_le : r.name.2 + 1 ≤ maxName
  name_nul : x[r.name.1 + r.name.2]? = some 0
  data_start : r.data.1 = align4 (r.name.1 + r.name.2 + 1)
  data_le : r.data.1 + r.data.2 ≤ x.length
  next_eq : next = align4 (r.data.1 + r.data.2)

/-- `Archive x start rs stop`: the records `rs` and a trailer lie between `start`
and `stop`. -/
inductive Archive (x : List UInt8) : ℕ → List Record → ℕ → Prop
  | trailer {start stop : ℕ} {crc : Bool} {r : Record} (hrecord : IsRecord x start crc r stop)
      (hname : nameBytes x r = Cpio.trailer) : Archive x start [] stop
  | record {start next stop : ℕ} {crc : Bool} {r : Record} {rs : List Record}
      (hrecord : IsRecord x start crc r next) (hname : nameBytes x r ≠ Cpio.trailer)
      (hrest : Archive x next rs stop) : Archive x start (r :: rs) stop

/-- All names are strings. -/
def Named (x : List UInt8) (rs : List Record) : Prop := ∀ r ∈ rs, isUtf8 (nameBytes x r) = true

/-- `Chain x pos archives`: from `pos` on, `x` is zero bytes and `archives`. -/
inductive Chain (x : List UInt8) : ℕ → List (List Record) → Prop
  | finish {pos : ℕ} (hpos : x.length ≤ pos) : Chain x pos []
  | zero {pos : ℕ} {archives : List (List Record)} (hzero : x[pos]? = some 0)
      (hrest : Chain x (pos + 1) archives) : Chain x pos archives
  | archive {pos stop : ℕ} {rs : List Record} {archives : List (List Record)}
      (halign : pos % 4 = 0) (harchive : Archive x pos rs stop) (hnamed : Named x rs)
      (hrest : Chain x stop archives) : Chain x pos (rs :: archives)

/-- Where an archive can start: at the start, after a zero byte and after an archive. -/
inductive Reach (x : List UInt8) : ℕ → Prop
  | start : Reach x 0
  | zero {pos : ℕ} (hreach : Reach x pos) (hzero : x[pos]? = some 0) : Reach x (pos + 1)
  | archive {pos stop : ℕ} {rs : List Record} (hreach : Reach x pos) (halign : pos % 4 = 0)
      (harchive : Archive x pos rs stop) (hnamed : Named x rs) : Reach x stop

/-- The files of one archive in buffer `idx`. -/
def files (x : List UInt8) (idx : ℕ) (rs : List Record) : List File :=
  rs.map fun r => (nameBytes x r, ⟨fileKind r.mode, r.mode &&& 0o7777,
    ⟨idx, (dataRange (linked rs) r).1, (dataRange (linked rs) r).2⟩⟩)

theorem toDigit_lt {d : UInt8} {v : ℕ} (h : toDigit d = some v) : v < 16 := by
  unfold toDigit at h
  split at h
  · rename_i hd
    have hle : d.toNat ≤ 0x39 := UInt8.le_iff_toNat_le.mp hd.2
    cases h
    omega
  split at h
  · rename_i hd
    have hle : d.toNat ≤ 0x66 := UInt8.le_iff_toNat_le.mp hd.2
    cases h
    omega
  split at h
  · rename_i hd
    have hle : d.toNat ≤ 0x46 := UInt8.le_iff_toNat_le.mp hd.2
    cases h
    omega
  · cases h

theorem shift_or {acc v : ℕ} (hv : v < 16) : acc <<< 4 ||| v = 16 * acc + v := by
  rw [← Nat.shiftLeft_add_eq_or_of_lt (i := 4) hv, Nat.shiftLeft_eq]
  omega

theorem foldlM_hex {digits : List UInt8} {acc n : ℕ} {e : FoldError} :
    digits.foldlM (fun acc d => do
        let v ← okOr (toDigit d) e
        return acc <<< 4 ||| v) acc = Except.ok n ↔
      ∃ values, digits.mapM toDigit = some values ∧
        values.foldl (fun acc v => 16 * acc + v) acc = n := by
  induction digits generalizing acc with
  | nil =>
    rw [List.foldlM_nil, List.mapM_nil]
    constructor
    · intro h
      exact ⟨[], rfl, Except.ok.inj h⟩
    · rintro ⟨values, hvalues, rfl⟩
      cases hvalues
      rfl
  | cons d digits ih =>
    rw [List.foldlM_cons, List.mapM_cons, bind_eq_ok]
    constructor
    · rintro ⟨acc', hstep, hrest⟩
      obtain ⟨v, hv, hacc⟩ := bind_eq_ok.mp hstep
      rw [okOr_eq_ok] at hv
      obtain ⟨values, hvalues, hfold⟩ := ih.mp hrest
      refine ⟨v :: values, ?_, ?_⟩
      · rw [hv, hvalues]
        rfl
      · rw [List.foldl_cons, ← shift_or (toDigit_lt hv), Except.ok.inj hacc]
        exact hfold
    · rintro ⟨values, hvalues, hfold⟩
      obtain ⟨v, hv, hvalues⟩ := Option.bind_eq_some_iff.mp hvalues
      obtain ⟨rest, hrest, hvalues⟩ := Option.bind_eq_some_iff.mp hvalues
      cases hvalues
      rw [List.foldl_cons, ← shift_or (toDigit_lt hv)] at hfold
      refine ⟨acc <<< 4 ||| v, ?_, ih.mpr ⟨rest, hrest, hfold⟩⟩
      rw [bind_eq_ok]
      exact ⟨v, okOr_eq_ok.mpr hv, rfl⟩

theorem hexField_eq_ok {x : List UInt8} {start i n : ℕ} :
    hexField x start i = .ok n ↔ field x start i = some n := by
  unfold hexField field
  rw [bind_eq_ok]
  simp only [okOr_eq_ok, Option.bind_eq_some_iff, hexValue, Option.map_eq_some_iff, foldlM_hex]

theorem checksum_eq (data : List UInt8) : checksum data = byteSum data % 2 ^ 32 := by
  have h : ∀ acc, data.foldl (fun a b => (a + b.toNat) % 2 ^ 32) (acc % 2 ^ 32) =
      (acc + byteSum data) % 2 ^ 32 := by
    induction data with
    | nil => simp [byteSum]
    | cons b data ih =>
      intro acc
      rw [List.foldl_cons, Nat.mod_add_mod, ih]
      simp [byteSum, Nat.add_assoc]
  exact (h 0).trans (by rw [Nat.zero_add])

theorem nameBytes_eq {x : List UInt8} {r : Record} (hle : r.name.1 + r.name.2 ≤ x.length) :
    slice x r.name.1 r.name.2 = some (nameBytes x r) := slice_eq_some.mpr ⟨hle, rfl⟩

theorem IsRecord.name_lt {x : List UInt8} {start next : ℕ} {crc : Bool} {r : Record}
    (h : IsRecord x start crc r next) : r.name.1 + r.name.2 < x.length :=
  (List.getElem?_eq_some_iff.mp h.name_nul).1

theorem checkData_eq_ok {x : List UInt8} {crc : Bool} {mode check a n : ℕ}
    (hle : a + n ≤ x.length) :
    checkData x crc mode check a (a + n) = .ok () ↔
      (crc → mode &&& sIfmt = sIfreg → check = byteSum ((x.drop a).take n) % 2 ^ 32) := by
  have hslice : sliceRange x a (a + n) = some ((x.drop a).take n) :=
    sliceRange_eq_some.mpr ⟨by omega, hle, by rw [Nat.add_sub_cancel_left]⟩
  unfold checkData
  by_cases h : crc = true ∧ mode &&& sIfmt = sIfreg
  · rw [if_pos h, hslice, unwrap, ok_bind, checksum_eq]
    by_cases hsum : byteSum ((x.drop a).take n) % 2 ^ 32 = check
    · rw [if_neg (by simpa using hsum)]
      exact ⟨fun _ _ _ => hsum.symm, fun _ => rfl⟩
    · rw [if_pos hsum]
      exact ⟨fun hbad => absurd hbad (fail_ne_ok _ _), fun hgood =>
        absurd (hgood h.1 h.2).symm hsum⟩
  · rw [if_neg h]
    exact ⟨fun _ hcrc hmode => absurd ⟨hcrc, hmode⟩ h, fun _ => rfl⟩

/-- The parser accepts a header exactly when it is one, and reads it as such. -/
theorem parseRecord_eq_ok {x : List UInt8} {start next : ℕ} {crc : Bool} {r : Record}
    (hmagic : slice x start 6 = some (if crc then crcMagic else newcMagic)) :
    parseRecord x start crc = .ok (r, next) ↔ IsRecord x start crc r next := by
  constructor
  · intro h
    unfold parseRecord at h
    simp only [bind_eq_ok, hexField_eq_ok] at h
    obtain ⟨ino, hino, mode, hmode, nlink, hnlink, filesize, hfilesize, devmajor, hdevmajor,
      devminor, hdevminor, namesize, hnamesize, check, hcheck, h⟩ := h
    split at h
    · exact absurd h (fail_ne_ok _ _)
    rename_i hsize
    obtain ⟨k, rfl⟩ : ∃ k, namesize = k + 1 := ⟨namesize - 1, by omega⟩
    have hend : start + newcHeader + (k + 1) - 1 = start + newcHeader + k := rfl
    rw [hend, Nat.add_sub_cancel_left] at h
    split at h
    · exact absurd h (fail_ne_ok _ _)
    rename_i hnul
    split at h
    · exact absurd h (fail_ne_ok _ _)
    rename_i hdata
    obtain ⟨⟨⟩, hsum, h⟩ := bind_eq_ok.mp h
    cases h
    refine ⟨hmagic, hino, hmode, hnlink, hfilesize, hdevmajor, hdevminor, hnamesize, ?_, rfl, ?_,
      not_not.mp hnul, rfl, Nat.le_of_not_lt hdata, rfl⟩
    · exact ⟨check, hcheck, (checkData_eq_ok (Nat.le_of_not_lt hdata)).mp hsum⟩
    · show k + 1 ≤ maxName
      omega
  · intro h
    obtain ⟨sum, hcheck, hsum⟩ := h.check
    have hname := h.name_start
    have hname_le := h.name_le
    have hend : start + newcHeader + (r.name.2 + 1) - 1 = r.name.1 + r.name.2 := by omega
    have hdata : align4 (start + newcHeader + (r.name.2 + 1)) = r.data.1 := by
      rw [h.data_start, hname, Nat.add_assoc _ r.name.2 1]
    have hok : checkData x crc r.mode sum r.data.1 (r.data.1 + r.data.2) = .ok () :=
      (checkData_eq_ok h.data_le).mpr hsum
    unfold parseRecord
    simp only [hexField_eq_ok.mpr h.ino, hexField_eq_ok.mpr h.mode, hexField_eq_ok.mpr h.nlink,
      hexField_eq_ok.mpr h.filesize, hexField_eq_ok.mpr h.devmajor, hexField_eq_ok.mpr h.devminor,
      hexField_eq_ok.mpr h.namesize, hexField_eq_ok.mpr hcheck, ok_bind]
    rw [if_neg (by omega), hend, if_neg (by simpa using h.name_nul), hdata,
      if_neg (Nat.not_lt.mpr h.data_le), hok, ok_bind, h.next_eq]
    have hrecord : (⟨(start + newcHeader, r.name.1 + r.name.2 - (start + newcHeader)), r.mode,
        ⟨r.inode.devmajor, r.inode.devminor, r.inode.ino⟩, r.nlink, (r.data.1, r.data.2)⟩ : Record)
          = r := by
      rw [← hname, Nat.add_sub_cancel_left]
    rw [hrecord]
    rfl

theorem magic_eq {magic : List UInt8} (h : ¬ (magic ≠ crcMagic ∧ magic ≠ newcMagic)) :
    magic = if decide (magic = crcMagic) then crcMagic else newcMagic := by
  by_cases hcrc : magic = crcMagic
  · rw [if_pos (decide_eq_true hcrc), hcrc]
  · rw [if_neg (by simpa using hcrc)]
    by_contra hnewc
    exact h ⟨hcrc, hnewc⟩

theorem archive_of_records {x : List UInt8} {start stop : ℕ} {rs : List Record}
    (h : records x start = .ok (rs, stop)) : Archive x start rs stop := by
  induction start using records.induct x generalizing rs stop with
  | case1 pos hnone =>
    rw [records, hnone] at h
    exact absurd h (fail_ne_ok _ _)
  | case2 pos magic hmagic hbad =>
    rw [records, hmagic] at h
    simp only [if_pos hbad] at h
    exact absurd h (fail_ne_ok _ _)
  | case3 pos magic hmagic hgood e herr =>
    rw [records, hmagic] at h
    simp only [if_neg hgood] at h
    split at h
    · cases h
    · rename_i hok
      rw [herr] at hok
      cases hok
  | case4 pos magic hmagic hgood record next hok ih =>
    rw [records, hmagic] at h
    simp only [if_neg hgood] at h
    split at h
    · cases h
    rename_i record' next' hok'
    rw [hok] at hok'
    obtain ⟨rfl, rfl⟩ : record = record' ∧ next = next' := by simpa using hok'
    have hrecord := (parseRecord_eq_ok (magic_eq hgood ▸ hmagic)).mp hok
    rw [nameBytes_eq hrecord.name_lt.le, unwrap, ok_bind] at h
    split at h
    · rename_i hname
      cases h
      exact .trailer hrecord hname
    · rename_i hname
      obtain ⟨⟨rest, stop'⟩, hrest, h⟩ := bind_eq_ok.mp h
      cases h
      exact .record hrecord hname (ih hrest)

theorem records_step {x : List UInt8} {start next : ℕ} {crc : Bool} {r : Record}
    (h : IsRecord x start crc r next) :
    records x start =
      if nameBytes x r = trailer then .ok ([], next)
      else do
        let (rest, stop) ← records x next
        return (r :: rest, stop) := by
  have hcrc : decide ((if crc then crcMagic else newcMagic) = crcMagic) = crc := by
    cases crc <;> decide
  have hgood : ¬ ((if crc then crcMagic else newcMagic) ≠ crcMagic ∧
      (if crc then crcMagic else newcMagic) ≠ newcMagic) := by
    cases crc <;> decide
  rw [records, h.magic]
  simp only [if_neg hgood]
  split
  · rename_i herr
    rw [hcrc, (parseRecord_eq_ok h.magic).mpr h] at herr
    cases herr
  · rename_i record' next' hok
    rw [hcrc, (parseRecord_eq_ok h.magic).mpr h] at hok
    obtain ⟨rfl, rfl⟩ : r = record' ∧ next = next' := by simpa using hok
    rw [nameBytes_eq h.name_lt.le, unwrap, ok_bind]
    rfl

theorem records_of_archive {x : List UInt8} {start stop : ℕ} {rs : List Record}
    (h : Archive x start rs stop) : records x start = .ok (rs, stop) := by
  induction h with
  | trailer hrecord hname => rw [records_step hrecord, if_pos hname]
  | record hrecord hname hrest ih =>
    rw [records_step hrecord, if_neg hname, ih]
    rfl

theorem Archive.name_le {x : List UInt8} {start stop : ℕ} {rs : List Record}
    (h : Archive x start rs stop) : ∀ r ∈ rs, r.name.1 + r.name.2 ≤ x.length := by
  induction h with
  | trailer hrecord hname => exact fun r hr => absurd hr List.not_mem_nil
  | record hrecord hname hrest ih =>
    intro r hr
    rcases List.mem_cons.mp hr with rfl | hr
    · exact hrecord.name_lt.le
    · exact ih r hr

theorem foldlM_insertRecord {x : List UInt8} {idx : ℕ} {nodes nodes' : List Node}
    (found : List (Inode × (ℕ × ℕ))) {rs : List Record}
    (hrange : ∀ r ∈ rs, r.name.1 + r.name.2 ≤ x.length) :
    rs.foldlM (insertRecord x idx found) nodes = .ok nodes' ↔
      Named x rs ∧ insertAll nodes (rs.map fun r => (nameBytes x r, ⟨fileKind r.mode,
        r.mode &&& 0o7777, ⟨idx, (dataRange found r).1, (dataRange found r).2⟩⟩)) = .ok nodes' := by
  induction rs generalizing nodes with
  | nil => simp [Named, insertAll]
  | cons r rs ih =>
    have hstep : ∀ n, insertRecord x idx found nodes r = .ok n ↔
        isUtf8 (nameBytes x r) = true ∧ insert nodes (nameBytes x r) ⟨fileKind r.mode,
          r.mode &&& 0o7777, ⟨idx, (dataRange found r).1, (dataRange found r).2⟩⟩ = .ok n := by
      intro n
      rw [insertRecord, nameBytes_eq (hrange r List.mem_cons_self), unwrap, ok_bind, bind_eq_ok]
      simp only [okOr_eq_ok, fromUtf8_eq_some]
      constructor
      · rintro ⟨name, ⟨hutf8, rfl⟩, hins⟩
        exact ⟨hutf8, hins⟩
      · rintro ⟨hutf8, hins⟩
        exact ⟨_, ⟨hutf8, rfl⟩, hins⟩
    have ih' := fun n => @ih n fun r' hr' => hrange r' (List.mem_cons_of_mem r hr')
    rw [List.foldlM_cons, bind_eq_ok, List.map_cons, insertAll, List.foldlM_cons, bind_eq_ok]
    simp only [hstep, ih', Named, List.forall_mem_cons]
    constructor
    · rintro ⟨n, ⟨hutf8, hins⟩, hnamed, hrest⟩
      exact ⟨⟨hutf8, hnamed⟩, n, hins, hrest⟩
    · rintro ⟨⟨hutf8, hnamed⟩, n, hins, hrest⟩
      exact ⟨n, ⟨hutf8, hins⟩, hnamed, hrest⟩

/-- An archive is folded in exactly when it is one and its names are strings. -/
theorem insertNewcArchive_eq_ok {x : List UInt8} {idx start stop : ℕ} {nodes nodes' : List Node} :
    insertNewcArchive x idx nodes start = .ok (nodes', stop) ↔
      ∃ rs, Archive x start rs stop ∧ Named x rs ∧ insertAll nodes (files x idx rs) = .ok nodes' := by
  unfold insertNewcArchive
  constructor
  · intro h
    obtain ⟨⟨rs, pos⟩, hrecords, h⟩ := bind_eq_ok.mp h
    obtain ⟨n, hfold, h⟩ := bind_eq_ok.mp h
    cases h
    have harchive := archive_of_records hrecords
    exact ⟨rs, harchive, (foldlM_insertRecord _ harchive.name_le).mp hfold⟩
  · rintro ⟨rs, harchive, hfold⟩
    have hnodes := (foldlM_insertRecord (linked rs) harchive.name_le).mpr hfold
    exact bind_eq_ok.mpr ⟨(rs, stop), records_of_archive harchive,
      bind_eq_ok.mpr ⟨nodes', hnodes, rfl⟩⟩

end Lamfold.Cpio
