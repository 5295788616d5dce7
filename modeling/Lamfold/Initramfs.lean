import Lamfold.CpioStored

/-!
Written initramfs images, read back. A writer lays out archives, each of records and a trailer,
at offsets divisible by 4, with zeros between them and compressed streams of such images in
their place. An image written so is opened as the tree of what was written.
-/
namespace Lamfold.Cpio

open Effects Bytes Utf8 FileGraph Streams

def hexDigit (v : ℕ) : UInt8 := UInt8.ofNat (if v < 10 then 0x30 + v else 0x41 + (v - 10))

theorem toDigit_hexDigit : ∀ v < 16, toDigit (hexDigit v) = some v := by decide

theorem mapM_toDigit {values : List ℕ} (h : ∀ v ∈ values, v < 16) :
    (values.map hexDigit).mapM toDigit = some values := by
  induction values with
  | nil => rfl
  | cons v values ih =>
    have hfirst := toDigit_hexDigit v (h v List.mem_cons_self)
    have hrest := ih fun w hw => h w (List.mem_cons_of_mem _ hw)
    rw [List.map_cons, List.mapM_cons, hfirst, hrest]
    rfl

/-- Eight digits have the number that they were written for. -/
theorem hexValue_hex8 {n : ℕ} (h : n < 2 ^ 32) : hexValue (hex8 n) = some n := by
  have hdigits : hex8 n = ((List.range 8).map fun i => n / 16 ^ (7 - i) % 16).map hexDigit := rfl
  have hlt : ∀ v ∈ (List.range 8).map fun i => n / 16 ^ (7 - i) % 16, v < 16 := by
    intro v hv
    obtain ⟨i, -, rfl⟩ := List.mem_map.mp hv
    exact Nat.mod_lt _ (by decide)
  have hrange : List.range 8 = [0, 1, 2, 3, 4, 5, 6, 7] := rfl
  unfold hexValue
  rw [hdigits, mapM_toDigit hlt, Option.map_some]
  simp only [hrange, List.map_cons, List.map_nil, List.foldl_cons, List.foldl_nil, Nat.reduceSub,
    Nat.reducePow, Option.some.injEq]
  omega

/-- What a writer has for a record: in the CRC format, the sum of its data as well. -/
structure Written where
  crc : Bool
  inode : Inode
  mode : ℕ
  uid : ℕ
  gid : ℕ
  nlink : ℕ
  mtime : ℕ
  rdevmajor : ℕ
  rdevminor : ℕ
  name : Str
  data : List UInt8

namespace Written

def check (w : Written) : ℕ := if w.crc then byteSum w.data % 2 ^ 32 else 0

/-- The header behind the magic. -/
def fields (w : Written) : List ℕ :=
  [w.inode.ino, w.mode, w.uid, w.gid, w.nlink, w.mtime, w.data.length, w.inode.devmajor,
    w.inode.devminor, w.rdevmajor, w.rdevminor, w.name.length + 1, w.check]

def magic (w : Written) : List UInt8 := if w.crc then crcMagic else newcMagic

/-- The NUL behind the name, and the zeros up to the data. -/
def namePad (w : Written) : List UInt8 :=
  List.replicate (align4 (newcHeader + w.name.length + 1) - (newcHeader + w.name.length)) 0

def dataPad (w : Written) : List UInt8 := List.replicate (align4 w.data.length - w.data.length) 0

def encode (w : Written) : List UInt8 :=
  w.magic ++ (w.fields.map hex8).flatten ++ w.name ++ w.namePad ++ w.data ++ w.dataPad

/-- Each field has eight digits, and the name is not too long. -/
structure Fits (w : Written) : Prop where
  fields_lt : ∀ n ∈ w.fields, n < 2 ^ 32
  name_le : w.name.length + 1 ≤ maxName

/-- The record at the offset `start`. -/
def recordAt (w : Written) (start : ℕ) : Record :=
  ⟨(start + newcHeader, w.name.length), w.mode, w.inode, w.nlink,
    (align4 (start + newcHeader + w.name.length + 1), w.data.length)⟩

section Layout

variable (w : Written)

theorem magic_length : w.magic.length = 6 := by
  unfold magic
  split <;> rfl

theorem fields_length : (w.fields.map hex8).flatten.length = 104 := rfl

theorem namePad_length : newcHeader + w.name.length + w.namePad.length =
    align4 (newcHeader + w.name.length + 1) := by
  have hle := le_align4 (newcHeader + w.name.length + 1)
  rw [namePad, List.length_replicate]
  omega

theorem dataPad_length : w.data.length + w.dataPad.length = align4 w.data.length := by
  have hle := le_align4 w.data.length
  rw [dataPad, List.length_replicate]
  omega

theorem encode_length :
    w.encode.length = align4 (newcHeader + w.name.length + 1) + align4 w.data.length := by
  have hheader : newcHeader = 110 := rfl
  have hname := w.namePad_length
  have hdata := w.dataPad_length
  simp only [encode, List.length_append, magic_length, fields_length]
  omega

theorem align4_add {a : ℕ} (h : a % 4 = 0) (b : ℕ) : align4 (a + b) = a + align4 b := by
  unfold align4
  omega

theorem encode_aligned : w.encode.length % 4 = 0 := by
  rw [encode_length]
  unfold align4
  omega

end Layout

variable {w : Written} {pre post : List UInt8}

theorem field_encode (hfits : w.Fits) {i n : ℕ} (hi : w.fields[i]? = some n) :
    field (pre ++ w.encode ++ post) pre.length i = some n := by
  have hwidth : ∀ digits ∈ w.fields.map hex8, digits.length = 8 := by
    intro digits hdigits
    obtain ⟨n, -, rfl⟩ := List.mem_map.mp hdigits
    rfl
  have hdigits : (w.fields.map hex8)[i]? = some (hex8 n) := by
    rw [List.getElem?_map, hi]
    rfl
  have hsplit : pre ++ w.encode ++ post = pre ++ w.magic ++ ((w.fields.map hex8).flatten ++
      (w.name ++ w.namePad ++ w.data ++ w.dataPad ++ post)) := by
    simp only [encode, List.append_assoc]
  have hstart : pre.length + 6 + i * 8 = (pre ++ w.magic).length + i * 8 := by
    rw [List.length_append, magic_length]
  unfold field
  rw [hsplit, hstart, slice_append_right, slice_append_left (slice_flatten hwidth hdigits)]
  exact hexValue_hex8 (hfits.fields_lt n (List.mem_of_getElem? hi))

theorem slice_name :
    slice (pre ++ w.encode ++ post) (pre.length + newcHeader) w.name.length = some w.name := by
  have hsplit : pre ++ w.encode ++ post = pre ++ w.magic ++ (w.fields.map hex8).flatten ++
      w.name ++ (w.namePad ++ w.data ++ w.dataPad ++ post) := by
    simp only [encode, List.append_assoc]
  refine slice_of_append hsplit ?_ rfl
  simp only [List.length_append, magic_length, fields_length]
  rfl

theorem recordAt_data {start : ℕ} (halign : start % 4 = 0) :
    (w.recordAt start).data.1 = start + align4 (newcHeader + w.name.length + 1) := by
  rw [← align4_add halign]
  simp only [recordAt, Nat.add_assoc]

/-- The data are where the record says. -/
theorem slice_data (halign : pre.length % 4 = 0) :
    slice (pre ++ w.encode ++ post) (w.recordAt pre.length).data.1 w.data.length = some w.data := by
  have hsplit : pre ++ w.encode ++ post = pre ++ w.magic ++ (w.fields.map hex8).flatten ++
      w.name ++ w.namePad ++ w.data ++ (w.dataPad ++ post) := by
    simp only [encode, List.append_assoc]
  refine slice_of_append hsplit ?_ rfl
  have hheader : newcHeader = 110 := rfl
  have hname := w.namePad_length
  rw [recordAt_data halign]
  simp only [List.length_append, magic_length, fields_length]
  omega

theorem nul_name :
    (pre ++ w.encode ++ post)[pre.length + newcHeader + w.name.length]? = some 0 := by
  have hle := le_align4 (newcHeader + w.name.length + 1)
  have hpad : w.namePad[0]? = some 0 := by
    rw [namePad, List.getElem?_replicate, if_pos (by omega)]
  have hsplit : pre ++ w.encode ++ post =
      (pre ++ w.magic ++ (w.fields.map hex8).flatten ++ w.name) ++
        (w.namePad ++ (w.data ++ w.dataPad ++ post)) := by
    simp only [encode, List.append_assoc]
  have hstart : pre.length + newcHeader + w.name.length =
      (pre ++ w.magic ++ (w.fields.map hex8).flatten ++ w.name).length := by
    simp only [List.length_append, magic_length, fields_length]
    rfl
  rw [hsplit, hstart, List.getElem?_append_right le_rfl, Nat.sub_self]
  obtain ⟨hlt, -⟩ := List.getElem?_eq_some_iff.mp hpad
  rwa [List.getElem?_append_left hlt]

/-- A written record is the record at its offset. -/
theorem isRecord (hfits : w.Fits) (halign : pre.length % 4 = 0) :
    IsRecord (pre ++ w.encode ++ post) pre.length w.crc (w.recordAt pre.length)
      (pre.length + w.encode.length) where
  magic := by
    have hsplit : pre ++ w.encode ++ post = pre ++ w.magic ++ ((w.fields.map hex8).flatten ++
        w.name ++ w.namePad ++ w.data ++ w.dataPad ++ post) := by
      simp only [encode, List.append_assoc]
    exact slice_of_append hsplit rfl w.magic_length.symm
  ino := field_encode hfits rfl
  mode := field_encode hfits rfl
  nlink := field_encode hfits rfl
  filesize := field_encode hfits rfl
  devmajor := field_encode hfits rfl
  devminor := field_encode hfits rfl
  namesize := field_encode hfits rfl
  check := by
    refine ⟨w.check, field_encode hfits rfl, fun hcrc _ => ?_⟩
    have hdata : slice (pre ++ w.encode ++ post) (w.recordAt pre.length).data.1 w.data.length =
        some w.data := slice_data halign
    rw [check, if_pos hcrc]
    exact congrArg (fun data => byteSum data % 2 ^ 32) (slice_eq_some.mp hdata).2.symm
  name_start := rfl
  name_le := hfits.name_le
  name_nul := nul_name
  data_start := rfl
  data_le := (slice_eq_some.mp (slice_data halign)).1
  next_eq := by
    have hstop : (w.recordAt pre.length).data.2 = w.data.length := rfl
    rw [encode_length, recordAt_data halign, hstop]
    unfold align4
    omega

end Written

/-- What a writer has for an archive: its records, and the trailer. -/
structure WrittenArchive where
  records : List Written
  last : Written

namespace WrittenArchive

def encode (a : WrittenArchive) : List UInt8 := a.records.flatMap Written.encode ++ a.last.encode

/-- The names are strings, and only the trailer has the trailer's name. -/
structure Fits (a : WrittenArchive) : Prop where
  records : ∀ w ∈ a.records, w.Fits ∧ isUtf8 w.name = true ∧ w.name ≠ trailer
  last : a.last.Fits
  trailer : a.last.name = trailer

end WrittenArchive

/-- The records from the offset `start` on. -/
def recordsFrom : ℕ → List Written → List Record
  | _, [] => []
  | start, w :: ws => w.recordAt start :: recordsFrom (start + w.encode.length) ws

/-- The record has what was written for it. -/
structure ReadsAs (x : List UInt8) (w : Written) (r : Record) : Prop where
  name : nameBytes x r = w.name
  mode : r.mode = w.mode
  nlink : r.nlink = w.nlink
  inode : r.inode = w.inode
  data : (x.drop r.data.1).take r.data.2 = w.data

section Archives

variable {x : List UInt8}

theorem readsAs_recordAt {w : Written} {pre post : List UInt8} (hx : x = pre ++ w.encode ++ post)
    (halign : pre.length % 4 = 0) : ReadsAs x w (w.recordAt pre.length) where
  name := by
    have hname : slice x (pre.length + newcHeader) w.name.length = some w.name :=
      hx ▸ Written.slice_name
    exact (slice_eq_some.mp hname).2
  mode := rfl
  nlink := rfl
  inode := rfl
  data := by
    have hdata : slice x (w.recordAt pre.length).data.1 w.data.length = some w.data :=
      hx ▸ Written.slice_data halign
    exact (slice_eq_some.mp hdata).2

/-- Written records are read one after another. -/
theorem recordsFrom_reads {ws : List Written} {pre post : List UInt8}
    (hx : x = pre ++ ws.flatMap Written.encode ++ post) (halign : pre.length % 4 = 0) :
    List.Forall₂ (ReadsAs x) ws (recordsFrom pre.length ws) := by
  induction ws generalizing pre with
  | nil => exact .nil
  | cons w ws ih =>
    rw [List.flatMap_cons] at hx
    have hfirst : x = pre ++ w.encode ++ (ws.flatMap Written.encode ++ post) := by
      rw [hx]
      simp only [List.append_assoc]
    have hrest : x = pre ++ w.encode ++ ws.flatMap Written.encode ++ post := by
      rw [hx]
      simp only [List.append_assoc]
    have haligned : (pre ++ w.encode).length % 4 = 0 := by
      have hw := w.encode_aligned
      rw [List.length_append]
      omega
    have htail := ih hrest haligned
    rw [List.length_append] at htail
    exact .cons (readsAs_recordAt hfirst halign) htail

/-- A written archive is an archive of its records. -/
theorem archive_encode {ws : List Written} {last : Written} {pre post : List UInt8}
    (hx : x = pre ++ ws.flatMap Written.encode ++ last.encode ++ post)
    (hrecords : ∀ w ∈ ws, w.Fits ∧ w.name ≠ trailer) (hlast : last.Fits)
    (htrailer : last.name = trailer) (halign : pre.length % 4 = 0) :
    Archive x pre.length (recordsFrom pre.length ws)
      (pre ++ ws.flatMap Written.encode ++ last.encode).length := by
  induction ws generalizing pre with
  | nil =>
    rw [List.flatMap_nil, List.append_nil] at hx ⊢
    have hrecord : IsRecord x pre.length last.crc (last.recordAt pre.length)
        (pre.length + last.encode.length) := hx ▸ Written.isRecord hlast halign
    rw [List.length_append]
    exact .trailer hrecord ((readsAs_recordAt hx halign).name.trans htrailer)
  | cons w ws ih =>
    obtain ⟨hfits, hname⟩ := hrecords w List.mem_cons_self
    rw [List.flatMap_cons, ← List.append_assoc] at hx ⊢
    have hfirst : x = pre ++ w.encode ++ (ws.flatMap Written.encode ++ last.encode ++ post) := by
      rw [hx]
      simp only [List.append_assoc]
    have hrecord : IsRecord x pre.length w.crc (w.recordAt pre.length)
        (pre.length + w.encode.length) := hfirst ▸ Written.isRecord hfits halign
    have haligned : (pre ++ w.encode).length % 4 = 0 := by
      have hw := w.encode_aligned
      rw [List.length_append]
      omega
    have hrest := ih hx (fun v hv => hrecords v (List.mem_cons_of_mem _ hv)) haligned
    refine .record hrecord ?_ ?_
    · rw [(readsAs_recordAt hfirst halign).name]
      exact hname
    · have hstart : (pre ++ w.encode).length = pre.length + w.encode.length := List.length_append
      rwa [hstart] at hrest

end Archives

def Written.IsLink (w : Written) : Prop := fileKind w.mode = .regular ∧ w.nlink > 1

instance (w : Written) : Decidable w.IsLink := inferInstanceAs (Decidable (_ ∧ _))

/-- The data of a file with links are the last that were written for one of them. -/
def WrittenArchive.fileData (a : WrittenArchive) (w : Written) : List UInt8 :=
  if w.IsLink then
    (((a.records.filter fun v => v.IsLink ∧ v.inode = w.inode).map Written.data).filter
      (· ≠ [])).getLast?.getD []
  else w.data

/-- What the archive puts where. -/
def WrittenArchive.filed (a : WrittenArchive) : List Filed :=
  a.records.map fun w => ⟨Path.components w.name, fileKind w.mode, a.fileData w⟩

theorem map_eq_of_rel {α β γ : Type} {R : α → β → Prop} {f : α → γ} {g : β → γ} {xs : List α}
    {ys : List β} (h : List.Forall₂ R xs ys) (hfg : ∀ {x y}, R x y → f x = g y) :
    xs.map f = ys.map g := by
  induction h with
  | nil => rfl
  | cons hfirst _ ih => rw [List.map_cons, List.map_cons, hfg hfirst, ih]

/-- An archive of records that are read as they were written puts what was written. -/
theorem filed_eq {a : WrittenArchive} {found : Found}
    (h : List.Forall₂ (ReadsAs found.bytes) a.records found.records) :
    found.records.map found.filed = a.filed := by
  have hlink : ∀ {w r}, ReadsAs found.bytes w r → (w.IsLink ↔ IsLink r) := by
    intro w r hr
    unfold Written.IsLink IsLink
    rw [hr.mode, hr.nlink]
  have hdata : ∀ inode, (a.records.filter fun v => v.IsLink ∧ v.inode = inode).map Written.data =
      found.linkData inode := by
    intro inode
    refine map_eq_of_rel (List.rel_filter ?_ h) fun hr => hr.data.symm
    intro w r hr
    simp only [decide_eq_true_eq, hlink hr, hr.inode]
  refine (map_eq_of_rel h ?_).symm
  intro w r hr
  have hfile : a.fileData w = found.fileData r := by
    unfold WrittenArchive.fileData Found.fileData
    rw [hdata, ← hr.inode]
    exact if_congr (hlink hr) rfl hr.data.symm
  rw [Found.filed, hr.name, hr.mode, hfile]

/-- A written image from the offset `pos` on: archives, zeros and, unless it is itself in a
compressed member, streams of such images; and the number of bytes in the streams. -/
inductive Initramfs (dec : StreamDecoder) : Bool → ℕ → List UInt8 → List WrittenArchive → ℕ → Prop
  | finish (top : Bool) (pos : ℕ) : Initramfs dec top pos [] [] 0
  | zero {top : Bool} {pos n : ℕ} {rest : List UInt8} {archives : List WrittenArchive}
      (hrest : Initramfs dec top (pos + 1) rest archives n) :
      Initramfs dec top pos (0 :: rest) archives n
  | archive {top : Bool} {pos n : ℕ} {rest : List UInt8} {archives : List WrittenArchive}
      (a : WrittenArchive) (hfits : a.Fits) (halign : pos % 4 = 0)
      (hrest : Initramfs dec top (pos + a.encode.length) rest archives n) :
      Initramfs dec top pos (a.encode ++ rest) (a :: archives) n
  | member {pos n : ℕ} {codec : StreamCodec} {stream data rest : List UInt8}
      {inner outer : List WrittenArchive} (hsniff : sniff (stream ++ rest) = some codec)
      (hdec : ∀ budget ≤ maxBootFileBytes, data.length ≤ budget →
        dec.decodeStream codec (stream ++ rest) budget = .ok (data, stream.length))
      (hinner : Initramfs dec false 0 data inner 0)
      (houter : Initramfs dec true (pos + stream.length) rest outer n) :
      Initramfs dec true pos (stream ++ rest) (inner ++ outer) (data.length + n)

/-- The archives found are those written. -/
def FoundAs (a : WrittenArchive) (found : Found) : Prop :=
  found.records.map found.filed = a.filed

/-- A written image is unpacked into its archives. -/
theorem Initramfs.unpacks {dec : StreamDecoder} {top : Bool} {pos n : ℕ} {bytes : List UInt8}
    {archives : List WrittenArchive} (h : Initramfs dec top pos bytes archives n) {idx b : ℕ}
    {x pre : List UInt8} (ms : List (List UInt8)) (hx : x = pre ++ bytes) (hpos : pos = pre.length)
    (hidx : top = true → idx = 0) (hcap : b ≤ maxBootFileBytes) (hn : n ≤ b) :
    ∃ found ms', Unpacks dec idx x pos ms b found ms' (b - n) ∧
      List.Forall₂ FoundAs archives found := by
  induction h generalizing idx b x pre ms with
  | finish top pos =>
    refine ⟨[], ms, .finish ?_, .nil⟩
    rw [hx, hpos, List.append_nil]
  | @zero top pos n rest archives _ ih =>
    have hrest : x = pre ++ [0] ++ rest := by
      rw [hx, List.append_assoc]
      rfl
    obtain ⟨found, ms', hunpacks, hfound⟩ := ih ms hrest (by rw [hpos, List.length_append]; rfl)
      hidx hcap hn
    have hzero : x[pos]? = some 0 := getElem?_of_append hx hpos
    exact ⟨found, ms', .zero hzero hunpacks, hfound⟩
  | @archive top pos n rest archives a hfits halign _ ih =>
    have hall : x = pre ++ a.records.flatMap Written.encode ++ a.last.encode ++ rest := by
      rw [hx]
      simp only [WrittenArchive.encode, List.append_assoc]
    have hrecords : x = pre ++ a.records.flatMap Written.encode ++ (a.last.encode ++ rest) := by
      rw [hall, List.append_assoc]
    have hrest : x = pre ++ a.encode ++ rest := by rw [hx, List.append_assoc]
    have hstop : pos + a.encode.length = (pre ++ a.encode).length := by
      rw [hpos, List.length_append]
    obtain ⟨found, ms', hunpacks, hfound⟩ := ih ms hrest hstop hidx hcap hn
    rw [hpos] at halign
    have hreads := recordsFrom_reads hrecords halign
    have harchive := archive_encode hall
      (fun w hw => ⟨(hfits.records w hw).1, (hfits.records w hw).2.2⟩) hfits.last hfits.trailer
      halign
    have hnamed : Named x (recordsFrom pre.length a.records) := by
      have hnames : a.records.map Written.name =
          (recordsFrom pre.length a.records).map (nameBytes x) :=
        map_eq_of_rel hreads fun hr => hr.name.symm
      intro r hr
      have hmem := List.mem_map_of_mem (f := nameBytes x) hr
      rw [← hnames] at hmem
      obtain ⟨w, hw, hname⟩ := List.mem_map.mp hmem
      rw [← hname]
      exact (hfits.records w hw).2.1
    rw [List.append_assoc, ← WrittenArchive.encode, ← hstop, ← hpos] at harchive
    rw [← hpos] at halign hnamed hreads
    exact ⟨⟨idx, x, _⟩ :: found, ms', .archive halign harchive hnamed hunpacks,
      .cons (filed_eq hreads) hfound⟩
  | @member pos n codec stream data rest inner outer hsniff hdec _ _ ihInner ihOuter =>
    obtain rfl := hidx rfl
    have hrest : x = pre ++ stream ++ rest := by rw [hx, List.append_assoc]
    have hstop : pos + stream.length = (pre ++ stream).length := by
      rw [hpos, List.length_append]
    have hdrop : x.drop pos = stream ++ rest := by
      rw [hx, hpos]
      exact List.drop_left
    rw [← hdrop] at hsniff
    have hdecoded := hdec b hcap (by omega)
    rw [← hdrop] at hdecoded
    obtain ⟨found, ms', hinner, hfound⟩ := @ihInner (ms.length + 1) (b - data.length) data []
      (ms ++ [data]) rfl rfl (fun h => nomatch h) (by omega) (Nat.zero_le _)
    obtain ⟨found', ms'', houter, hfound'⟩ := @ihOuter 0 (b - data.length) x (pre ++ stream) ms'
      hrest hstop (fun _ => rfl) (by omega) (by omega)
    rw [Nat.sub_zero] at hinner
    rw [Nat.sub_sub] at houter
    exact ⟨found ++ found', ms'', .member hsniff hdecoded hinner houter,
      List.rel_append hfound hfound'⟩

/-- An image that starts with an archive is opened as the tree of what was written: of the
records at a path, the last that is not a directory's. -/
theorem initramfs_presents {ι : Type} {readers : Readers} {src : Source}
    {archives : List WrittenArchive} {n : ℕ}
    (h : Initramfs readers.dec true 0 src.content archives n)
    (hmagic : newcMagic.isPrefixOf src.content ∨ crcMagic.isPrefixOf src.content)
    (hlen : src.len ≤ maxBootFileBytes) (hn : n ≤ maxBootFileBytes) {g : Files ι}
    {place : ι → List Str} (hroot : place g.root = [])
    (hfiles : ∀ i, ItemAt (archives.flatMap WrittenArchive.filed) place (place i) (g.item i)) :
    ∃ c, mount readers src = .ok c ∧ Presents frontend g c := by
  obtain ⟨found, ms, hunpacks, hfound⟩ :=
    @Initramfs.unpacks _ _ _ _ _ _ h 0 maxBootFileBytes src.content [] [] rfl rfl (fun _ => rfl)
      le_rfl hn
  have hfiled : archives.flatMap WrittenArchive.filed =
      found.flatMap fun a => a.records.map a.filed := by
    rw [List.flatMap_def, List.flatMap_def, map_eq_of_rel hfound fun h => h.symm]
  rw [hfiled] at hfiles
  have hstores : Stores _ place readers src g := ⟨hlen, .chain hmagic hunpacks, hroot, hfiles⟩
  obtain ⟨c, label, hmount, hc⟩ := hstores.lists.mounted hlen
  exact ⟨c, hmount, (hstores.serves hc).presents rfl⟩

/-- A directory `d`. -/
def letterDir : Written := ⟨false, ⟨0, 0, 1⟩, 0o40755, 0, 0, 2, 0, 0, 0, [0x64], []⟩

/-- A file `d/f` with one byte. -/
def letterFile (crc : Bool) (byte : UInt8) : Written :=
  ⟨crc, ⟨0, 0, 2⟩, 0o100644, 0, 0, 1, 0, 0, 0, [0x64, 0x2F, 0x66], [byte]⟩

def letterTrailer (crc : Bool) : Written := ⟨crc, ⟨0, 0, 0⟩, 0, 0, 0, 1, 0, 0, 0, trailer, []⟩

/-- The directory and the file. -/
def firstArchive : WrittenArchive := ⟨[letterDir, letterFile false 0x78], letterTrailer false⟩

/-- The file again, in the CRC format. -/
def secondArchive : WrittenArchive := ⟨[letterFile true 0x79], letterTrailer true⟩

theorem firstArchive_fits : firstArchive.Fits where
  records w hw := by
    rcases List.mem_pair.mp hw with rfl | rfl
    · exact ⟨⟨by decide, by decide⟩, by decide, by decide⟩
    · exact ⟨⟨by decide, by decide⟩, by decide, by decide⟩
  last := ⟨by decide, by decide⟩
  trailer := rfl

theorem secondArchive_fits : secondArchive.Fits where
  records w hw := by
    obtain rfl := List.mem_singleton.mp hw
    exact ⟨⟨by decide, by decide⟩, by decide, by decide⟩
  last := ⟨by decide, by decide⟩
  trailer := rfl

def twoArchivesContent : List UInt8 :=
  firstArchive.encode ++ (0 :: 0 :: 0 :: 0 :: (secondArchive.encode ++ []))

theorem twoArchivesContent_lt : twoArchivesContent.length < 2 ^ 64 := by decide +kernel

def twoArchives : Source := ⟨twoArchivesContent, twoArchivesContent_lt⟩

theorem initramfs_twoArchives :
    Initramfs plainReaders.dec true 0 twoArchives.content [firstArchive, secondArchive] 0 := by
  refine .archive firstArchive firstArchive_fits rfl (.zero (.zero (.zero (.zero ?_))))
  exact .archive secondArchive secondArchive_fits (by decide +kernel) (.finish _ _)

/-- What the archives put where. -/
def letterFiled : List Filed :=
  [⟨[[0x64]], .directory, []⟩, ⟨[[0x64], [0x66]], .regular, [0x78]⟩,
    ⟨[[0x64], [0x66]], .regular, [0x79]⟩]

theorem twoArchives_filed :
    [firstArchive, secondArchive].flatMap WrittenArchive.filed = letterFiled := by
  decide +kernel

def letterPlace : Few → List Str
  | .root => []
  | .first => [[0x64]]
  | .second => [[0x64], [0x66]]

/-- The file has its last data. -/
def letterGraph : Files Few where
  root := .root
  item
    | .root => .dir [([0x64], .first)]
    | .first => .dir [([0x66], .second)]
    | .second => .file [0x79]

theorem below_letterFiled (name : Str) : Below [name] letterFiled ↔ name = [0x64] := by
  simp [Below, letterFiled]

theorem below_letterDir (name : Str) : Below [[0x64], name] letterFiled ↔ name = [0x66] := by
  simp [Below, letterFiled]

theorem letterFiled_items (i : Few) :
    ItemAt letterFiled letterPlace (letterPlace i) (letterGraph.item i) := by
  match i with
  | .root =>
    refine .dir (.inl rfl) (by decide) ?_ ?_
    · intro name
      rw [letterPlace, List.nil_append, below_letterFiled]
      simp
    · intro name j hj
      obtain ⟨rfl, rfl⟩ := Prod.mk.inj (List.mem_singleton.mp hj)
      rfl
  | .first =>
    have hbelow : Below [[0x64]] letterFiled :=
      ⟨⟨[[0x64]], .directory, []⟩, by decide, List.prefix_refl _⟩
    refine .dir (.inr ⟨by decide, hbelow⟩) (by decide) ?_ ?_
    · intro name
      change _ ↔ Below [[0x64], name] letterFiled
      rw [below_letterDir]
      simp
    · intro name j hj
      obtain ⟨rfl, rfl⟩ := Prod.mk.inj (List.mem_singleton.mp hj)
      rfl
  | .second => exact .file (f := ⟨[[0x64], [0x66]], .regular, [0x79]⟩) (by decide) (by decide) rfl

theorem initramfs_presents_twoArchives :
    ∃ c, mount plainReaders twoArchives = .ok c ∧ Presents frontend letterGraph c := by
  have hroot : letterPlace letterGraph.root = [] := rfl
  have hitems : ∀ i, ItemAt ([firstArchive, secondArchive].flatMap WrittenArchive.filed)
      letterPlace (letterPlace i) (letterGraph.item i) := by
    rw [twoArchives_filed]
    exact letterFiled_items
  exact initramfs_presents initramfs_twoArchives (by decide +kernel) (by decide +kernel)
    (Nat.zero_le _) hroot hitems

end Lamfold.Cpio
