import Lamfold.Flock
import Lamfold.Presents
import Lamfold.RomfsChain

/-!
Whole romfs volumes. A volume stores a graph of files when every file has a header, a directory
the chain of its entries, and the data of a file lies behind its header; an entry is the header
of its file or leads to it by hard links. Such a volume is opened, and presents the graph.
-/
namespace Lamfold.Romfs

open Effects Bytes Utf8 FileGraph

theorem align16_le {n : ℕ} : n ≤ align16 n ∧ align16 n < n + 16 := by
  unfold align16
  omega

/-- A name that a header can have. -/
structure Named (name : Str) : Prop where
  length_lt : name.length < maxName
  nul : 0 ∉ name
  utf8 : isUtf8 name = true

/-- A header as it is stored. The place of the next one is a multiple of 16, and zeros fill the
name up to one. -/
structure Record where
  next : Fin (2 ^ 28)
  executable : Bool
  ftype : Fin 8
  info : UInt32
  size : UInt32
  sum : UInt32
  name : Str
  named : Named name

namespace Record

variable (r : Record)

def word : ℕ := 16 * r.next.val + ((if r.executable then 8 else 0) + r.ftype.val)

/-- The name, the zero behind it and the padding. -/
def nameField : List UInt8 :=
  r.name ++ 0 :: List.replicate (align16 (r.name.length + 1) - (r.name.length + 1)) 0

def encode : List UInt8 :=
  beBytes 4 r.word ++ beBytes 4 r.info.toNat ++ beBytes 4 r.size.toNat ++
    beBytes 4 r.sum.toNat ++ r.nameField

/-- The data of a header at `off` follows it. -/
def dataOff (off : ℕ) : ℕ := off + 16 + align16 (r.name.length + 1)

def header (off : ℕ) : Header where
  nextOff := 16 * r.next.val
  ftype := r.ftype.val
  info := r.info.toNat
  size := r.size.toNat
  name := r.name
  dataOff := r.dataOff off

theorem nameField_length : r.nameField.length = align16 (r.name.length + 1) := by
  have hle := (align16_le (n := r.name.length + 1)).1
  unfold nameField
  rw [List.length_append, List.length_cons, List.length_replicate]
  omega

theorem encode_length : r.encode.length = 16 + align16 (r.name.length + 1) := by
  unfold encode
  simp only [List.length_append, beBytes_length, nameField_length]

theorem encode_length_le : r.encode.length ≤ 16 + maxName := by
  have hname := r.named.length_lt
  rw [encode_length]
  unfold maxName at hname ⊢
  unfold align16
  omega

theorem word_lt : r.word < 256 ^ 4 := by
  have hnext := r.next.isLt
  have htype := r.ftype.isLt
  unfold word
  split <;> omega

/-- The low four bits are the type and the execute bit, the others the place of the next. -/
theorem word_bits : r.word &&& 0xFFFFFFF0 = 16 * r.next.val ∧ r.word &&& 7 = r.ftype.val := by
  have hnext := r.next.isLt
  have htype := r.ftype.isLt
  have hlow : ∀ n < 16, n &&& 0xFFFFFFF0 = 0 := by decide
  have hmode : (if r.executable then 8 else 0) + r.ftype.val < 2 ^ 4 := by
    split <;> omega
  constructor
  · have hword : r.word = 2 ^ 4 * r.next ||| ((if r.executable then 8 else 0) + r.ftype) :=
      Nat.two_pow_add_eq_or_of_lt hmode r.next
    have hshift : 2 ^ 4 * r.next.val &&& 0xFFFFFFF0 = 2 ^ 4 * r.next.val := by
      have hmask : r.next.val &&& (2 ^ 28 - 1) = r.next.val :=
        Nat.and_two_pow_sub_one_of_lt_two_pow hnext
      have hboth : (r.next.val <<< 4) &&& ((2 ^ 28 - 1) <<< 4) =
          (r.next.val &&& (2 ^ 28 - 1)) <<< 4 := Nat.shiftLeft_and_distrib.symm
      rw [hmask, Nat.shiftLeft_eq, Nat.mul_comm] at hboth
      exact hboth
    rw [hword, Nat.and_or_distrib_right, hshift, hlow _ hmode, Nat.or_zero]
    rfl
  · have hmod : r.word &&& 7 = r.word % 2 ^ 3 := Nat.and_two_pow_sub_one_eq_mod r.word 3
    rw [hmod]
    unfold word
    split <;> omega

end Record

/-- The header is stored at `off`. -/
abbrev StoredAt (src : Source) (off : ℕ) (r : Record) : Prop :=
  slice src.content off r.encode.length = some r.encode

theorem beU32_of_append {bytes : List UInt8} (pre post : List UInt8) {n v : ℕ}
    (hbytes : bytes = pre ++ beBytes 4 v ++ post) (hn : n = pre.length) (hv : v < 256 ^ 4) :
    beU32 bytes n = .ok v := by
  have hslice : slice bytes n 4 = some (beBytes 4 v) :=
    slice_of_append hbytes hn (beBytes_length 4 v).symm
  refine bind_eq_ok.mpr ⟨beBytes 4 v, okOr_eq_ok.mpr hslice, ?_⟩
  exact congrArg Except.ok (beNat_beBytes hv)

theorem nulAt_of_append {name : List UInt8} (h : 0 ∉ name) (post : List UInt8) (what : String) :
    nulAt (name ++ 0 :: post) what = .ok name.length := by
  unfold nulAt
  rw [List.findIdx?_append, List.findIdx?_eq_none_iff.mpr]
  · simp [List.findIdx?_cons, okOr]
  · intro b hb
    have hne : b ≠ 0 := fun hzero => h (hzero ▸ hb)
    simpa using hne

/-- A header is read as it is stored. -/
theorem StoredAt.read {src : Source} {off : ℕ} {r : Record} (h : StoredAt src off r) :
    readHeader src off = .ok (r.header off) := by
  have hlen := r.encode_length
  have hwindow := r.encode_length_le
  obtain ⟨hin, hbytes⟩ := slice_eq_some.mp h
  have hlt := src.length_lt
  generalize havail : min (16 + maxName) (src.len - off) = avail
  have hle : r.encode.length ≤ avail := by
    unfold Source.len at havail
    omega
  obtain ⟨win, hwin⟩ : ∃ win, src.readAt off avail = .ok win := by
    refine ⟨_, Source.readAt_eq_ok.mpr (slice_eq_some.mpr ⟨?_, rfl⟩)⟩
    unfold Source.len at havail
    omega
  have hsplit : win = r.encode ++ win.drop r.encode.length := by
    have hfirst := Source.readAt_eq_ok.mp (Source.readAt_take hwin hle)
    rw [h] at hfirst
    rw [Option.some.inj hfirst, List.length_take, Source.readAt_length hwin,
      Nat.min_eq_left hle, List.take_append_drop]
  generalize hpost : win.drop r.encode.length = post at hsplit
  have hword : beU32 win 0 = .ok r.word := by
    refine beU32_of_append [] (beBytes 4 r.info.toNat ++ beBytes 4 r.size.toNat ++
      beBytes 4 r.sum.toNat ++ r.nameField ++ post) ?_ rfl r.word_lt
    rw [hsplit, Record.encode]
    simp only [List.nil_append, List.append_assoc]
  have hinfo : beU32 win 4 = .ok r.info.toNat := by
    refine beU32_of_append (beBytes 4 r.word) (beBytes 4 r.size.toNat ++
      beBytes 4 r.sum.toNat ++ r.nameField ++ post) ?_ (by simp) r.info.toNat_lt
    rw [hsplit, Record.encode]
    simp only [List.append_assoc]
  have hsize : beU32 win 8 = .ok r.size.toNat := by
    refine beU32_of_append (beBytes 4 r.word ++ beBytes 4 r.info.toNat)
      (beBytes 4 r.sum.toNat ++ r.nameField ++ post) ?_ (by simp) r.size.toNat_lt
    rw [hsplit, Record.encode]
    simp only [List.append_assoc]
  have hname : win.drop 16 = r.nameField ++ post := by
    have hpre : (beBytes 4 r.word ++ beBytes 4 r.info.toNat ++ beBytes 4 r.size.toNat ++
        beBytes 4 r.sum.toNat).length = 16 := by
      simp only [List.length_append, beBytes_length]
    rw [hsplit, Record.encode, List.append_assoc, ← hpre, List.drop_left]
  have hnul : nulAt (win.drop 16) "romfs: unterminated name" = .ok r.name.length := by
    rw [hname, Record.nameField, List.append_assoc, List.cons_append]
    exact nulAt_of_append r.named.nul _ _
  have hdata : u64 (off + 16 + align16 (r.name.length + 1)) = .ok (r.dataOff off) :=
    fits_eq_ok.mpr ⟨by omega, rfl⟩
  have htaken : (win.drop 16).take r.name.length = r.name := by
    rw [hname, Record.nameField, List.append_assoc, List.take_left]
  unfold readHeader
  dsimp only
  rw [havail, if_neg (by omega), hwin, ok_bind, hword, lift_ok_bind, hinfo, lift_ok_bind, hsize,
    lift_ok_bind, hnul, lift_ok_bind, hdata, lift_ok_bind, htaken,
    fromUtf8Lossy_of_utf8 r.named.utf8, r.word_bits.1, r.word_bits.2]
  rfl

section Volumes

variable {ι : Type} {src : Source} {g : Files ι} {place : ι → ℕ}

/-- So many hard links lead from the header at `off` to the one at `node`. -/
inductive HardLinks (src : Source) : ℕ → ℕ → ℕ → Prop
  | here (node : ℕ) : HardLinks src 0 node node
  | hop {n off node : ℕ} {r : Record} (hstored : StoredAt src off r) (htype : r.ftype.val = ftHardlink)
      (hrest : HardLinks src n r.info.toNat node) : HardLinks src (n + 1) off node

/-- A header of the file whose own header is at `node`. -/
def HeaderOf (src : Source) (off node : ℕ) : Prop := ∃ n ≤ maxLinkHops, HardLinks src n off node

/-- The chain of so many headers from `o` on has the entries, and maybe `.` and `..`. -/
inductive Chain (src : Source) (place : ι → ℕ) : ℕ → ℕ → List (Str × ι) → Prop
  | stop : Chain src place 0 0 []
  | dots {n o : ℕ} {r : Record} {entries : List (Str × ι)} (ho : o ≠ 0) (hstored : StoredAt src o r)
      (hname : r.name = [0x2E] ∨ r.name = [0x2E, 0x2E])
      (hrest : Chain src place n (16 * r.next.val) entries) : Chain src place (n + 1) o entries
  | entry {n o : ℕ} {r : Record} {j : ι} {entries : List (Str × ι)} (ho : o ≠ 0)
      (hstored : StoredAt src o r) (hname : r.name ≠ [0x2E] ∧ r.name ≠ [0x2E, 0x2E])
      (hfile : HeaderOf src o (place j)) (hrest : Chain src place n (16 * r.next.val) entries) :
      Chain src place (n + 1) o ((r.name, j) :: entries)

/-- A header at `off` and what belongs to it. -/
inductive Holds (src : Source) (place : ι → ℕ) (off : ℕ) (r : Record) :
    Item Str (List UInt8) ι → Prop
  | dir {n : ℕ} {entries : List (Str × ι)} (htype : r.ftype.val = ftDirectory) (hn : n ≤ maxHeaders)
      (hchain : Chain src place n r.info.toNat entries) : Holds src place off r (.dir entries)
  | file {data : List UInt8} (htype : r.ftype.val = ftRegular) (hsize : r.size.toNat = data.length)
      (hdata : slice src.content (r.dataOff off) data.length = some data) :
      Holds src place off r (.file data)
  | link {target : List UInt8} (htype : r.ftype.val = ftSymlink) (hsize : r.size.toNat = target.length)
      (hcap : target.length ≤ maxBootFileBytes)
      (hdata : slice src.content (r.dataOff off) target.length = some target) :
      Holds src place off r (.link target)
  | special (htype : ftSymlink < r.ftype.val) : Holds src place off r .special

/-- The head of a volume: magic, size, checksum and name. -/
def volumeHead (sizeAndSum : List UInt8) (name : Str) : List UInt8 :=
  magic ++ sizeAndSum ++ name ++
    0 :: List.replicate (align16 (name.length + 1) - (name.length + 1)) 0

/-- The volume stores the files, each under a header at its place. -/
structure Stores (src : Source) (g : Files ι) (place : ι → ℕ) : Prop where
  volume : ∃ sizeAndSum name, sizeAndSum.length = 8 ∧ 0 ∉ name ∧ name.length < maxName ∧
    volumeHead sizeAndSum name <+: src.content ∧
    HeaderOf src (16 + align16 (name.length + 1)) (place g.root)
  files : ∀ i, ∃ r, StoredAt src (place i) r ∧ Holds src place (place i) r (g.item i)

theorem HardLinks.linksTo {n off node : ℕ} {target : Header} (h : HardLinks src n off node)
    (hread : readHeader src node = .ok target) (htype : target.ftype ≠ ftHardlink) :
    LinksTo src n off node target := by
  induction h with
  | here node => exact .here hread htype
  | hop hstored hlink _ ih => exact .hop hstored.read hlink (ih hread)

/-- The type of a header, and its size when there is data, are those of the file. -/
theorem Holds.kind {off : ℕ} {r : Record} {i : ι} (h : Holds src place off r (g.item i)) :
    Romfs.kind r.ftype.val = g.kind i := by
  unfold Files.kind Romfs.kind ftDirectory ftRegular ftSymlink
  generalize g.item i = item at h
  cases h with
  | dir htype => rw [htype]; rfl
  | file htype => rw [htype]; rfl
  | link htype => rw [htype]; rfl
  | special htype =>
    unfold ftSymlink at htype
    rw [if_neg (by omega), if_neg (by omega), if_neg (by omega)]

theorem Holds.not_hardlink {off : ℕ} {r : Record} {item : Item Str (List UInt8) ι}
    (h : Holds src place off r item) : r.ftype.val ≠ ftHardlink := by
  cases h with
  | dir htype => rw [htype]; decide
  | file htype => rw [htype]; decide
  | link htype => rw [htype]; decide
  | special htype =>
    unfold ftSymlink at htype
    unfold ftHardlink
    omega

namespace Stores

variable {node : ℕ} {i : ι}

/-- A header of a file is resolved to its own one. -/
theorem resolvedHeader (h : Stores src g place) (hnode : HeaderOf src node (place i)) :
    ∃ r, Holds src place (place i) r (g.item i) ∧
      Romfs.resolvedHeader src node = .ok (place i, r.header (place i)) := by
  obtain ⟨r, hstored, hholds⟩ := h.files i
  obtain ⟨n, hn, hlinks⟩ := hnode
  refine ⟨r, hholds, resolvedHeader_eq_ok.mpr ⟨n, hn, ?_⟩⟩
  exact hlinks.linksTo hstored.read hholds.not_hardlink

/-- The walk along a chain lists its entries. -/
theorem readChain (h : Stores src g place) {n bound o : ℕ} {entries : List (Str × ι)}
    (hchain : Chain src place n o entries) (hn : n ≤ bound) :
    ∃ es, Romfs.readChain src bound o = .ok es ∧
      List.Forall₂ (ListsEntry g fun node i => HeaderOf src node (place i)) entries es := by
  induction hchain generalizing bound with
  | stop =>
    refine ⟨[], ?_, .nil⟩
    cases bound <;> rfl
  | @dots n o r entries ho hstored hname _ ih =>
    have hpos : 0 < bound := Nat.lt_of_lt_of_le n.succ_pos hn
    obtain ⟨bound, rfl⟩ := Nat.exists_eq_succ_of_ne_zero (Nat.ne_of_gt hpos)
    obtain ⟨es, hes, hlists⟩ := ih (Nat.le_of_succ_le_succ hn)
    refine ⟨es, ?_, hlists⟩
    have hlisted : ¬(r.header o).Listed := by
      rintro ⟨hdot, hdots⟩
      rcases hname with hname | hname
      · exact hdot hname
      · exact hdots hname
    rw [readChain_succ ho hstored.read, if_neg hlisted]
    exact hes
  | @entry n o r j entries ho hstored hname hfile _ ih =>
    have hpos : 0 < bound := Nat.lt_of_lt_of_le n.succ_pos hn
    obtain ⟨bound, rfl⟩ := Nat.exists_eq_succ_of_ne_zero (Nat.ne_of_gt hpos)
    obtain ⟨es, hes, hlists⟩ := ih (Nat.le_of_succ_le_succ hn)
    obtain ⟨target, hholds, hresolved⟩ := h.resolvedHeader hfile
    have hlisted : (r.header o).Listed := hname
    refine ⟨⟨r.name, place j, kind target.ftype.val⟩ :: es, ?_, .cons ?_ hlists⟩
    swap
    · exact ⟨rfl, ⟨0, Nat.zero_le _, .here (place j)⟩, hholds.kind⟩
    rw [readChain_succ ho hstored.read, if_pos hlisted, hresolved, ok_bind]
    exact bind_eq_ok.mpr ⟨es, hes, rfl⟩

theorem mount (h : Stores src g place) :
    ∃ r, Romfs.mount src = .ok r ∧ r.src = src ∧ HeaderOf src r.firstHdr (place g.root) := by
  obtain ⟨sizeAndSum, name, hsum, hnul, hname, ⟨rest, hrest⟩, hroot⟩ := h.volume
  refine ⟨⟨src, 16 + align16 (name.length + 1)⟩, ?_, rfl, hroot⟩
  have hpad := (align16_le (n := name.length + 1)).1
  have hhead : (volumeHead sizeAndSum name).length = 16 + align16 (name.length + 1) := by
    unfold volumeHead magic
    simp only [List.length_append, List.length_cons, List.length_nil, List.length_replicate, hsum]
    omega
  have hlen : 16 + align16 (name.length + 1) ≤ src.len := by
    unfold Source.len
    rw [← hrest, List.length_append, hhead]
    exact Nat.le_add_right _ _
  have hcap : 16 + align16 (name.length + 1) ≤ 16 + maxName := by
    unfold maxName at hname ⊢
    unfold align16
    omega
  generalize havail : min (16 + maxName) src.len = avail
  have hlt := src.length_lt
  have hread : src.readAt 0 avail = .ok (src.content.take avail) := by
    refine Source.readAt_eq_ok.mpr (slice_eq_some.mpr ⟨?_, rfl⟩)
    unfold Source.len at havail
    omega
  have hsplit : src.content.take avail = volumeHead sizeAndSum name ++
      rest.take (avail - (volumeHead sizeAndSum name).length) := by
    rw [← hrest, List.take_append, List.take_of_length_le (by omega)]
  generalize rest.take (avail - (volumeHead sizeAndSum name).length) = post at hsplit
  have hmagic : (src.content.take avail).take 8 = magic := by
    rw [hsplit, volumeHead, List.append_assoc, List.append_assoc, List.append_assoc]
    exact List.take_left' rfl
  have hname : nulAt ((src.content.take avail).drop 16) "romfs: unterminated volume name" =
      .ok name.length := by
    have hpre : (magic ++ sizeAndSum).length = 16 := by
      rw [List.length_append, hsum]
      rfl
    rw [hsplit, volumeHead, List.append_assoc, List.append_assoc, ← hpre, List.drop_left,
      List.cons_append]
    exact nulAt_of_append hnul _ _
  unfold Romfs.mount
  dsimp only
  rw [if_neg (by omega), havail, hread, ok_bind, if_neg (not_not.mpr hmagic), hname]
  rfl

theorem describes {r : Record} (h : Holds src place (place i) r (g.item i)) :
    Describes g i ⟨Romfs.kind r.ftype.val, r.size.toNat, 0⟩ := by
  refine ⟨h.kind, ?_⟩
  intro data hdata
  rw [hdata] at h
  cases h with
  | file _ hsize => exact hsize

theorem readDir (h : Stores src g place) {r : Romfs} (hr : r.src = src)
    (hnode : HeaderOf src node (place i)) {entries : List (Str × ι)}
    (hitem : g.item i = .dir entries) :
    ∃ es, r.readDir node = .ok es ∧
      List.Forall₂ (ListsEntry g fun node i => HeaderOf src node (place i)) entries es := by
  obtain ⟨head, hholds, hresolved⟩ := h.resolvedHeader hnode
  rw [hitem] at hholds
  cases hholds with
  | dir htype hn hchain =>
    obtain ⟨es, hes, hlists⟩ := h.readChain hchain hn
    refine ⟨es, ?_, hlists⟩
    unfold Romfs.readDir
    rw [hr, hresolved, ok_bind]
    dsimp only [Record.header]
    rw [if_neg (not_not.mpr htype)]
    exact hes

/-- Every method answers as the graph does. -/
theorem serves (h : Stores src g place) {r : Romfs} (hr : r.src = src)
    (hroot : HeaderOf src r.firstHdr (place g.root)) :
    Serves frontend g (· = r) fun _ node i => HeaderOf src node (place i) where
  later c s hs := ⟨(frontend_keeps (· = r)).after c hs, fun hat => hat⟩
  root hs := hs ▸ hroot
  metadata {s node i} hs hnode := by
    subst hs
    obtain ⟨head, hholds, hresolved⟩ := h.resolvedHeader hnode
    refine ⟨_, ?_, describes hholds⟩
    change Romfs.metadata s node = _
    unfold Romfs.metadata
    rw [hr, hresolved]
    rfl
  lookup {s node i} name hs hnode hdir := by
    subst hs
    obtain ⟨entries, hitem⟩ := Files.kind_directory.mp hdir
    obtain ⟨es, hes, hlists⟩ := h.readDir hr hnode hitem
    refine ⟨entryNamed es name, ?_, ListsEntry.entryNamed hlists hitem name⟩
    change Romfs.lookup s node name = _
    unfold Romfs.lookup
    rw [hes]
    rfl
  lookup_other {s node i} name child hs hnode hother hlookup := by
    subst hs
    obtain ⟨head, hholds, hresolved⟩ := h.resolvedHeader hnode
    change Romfs.lookup s node name = _ at hlookup
    obtain ⟨es, hes, -⟩ := bind_eq_ok.mp hlookup
    unfold Romfs.readDir at hes
    rw [hr, hresolved, ok_bind] at hes
    have htype := (ite_error_eq_ok.mp hes).1
    apply hother
    rw [← hholds.kind]
    exact if_pos (not_not.mp htype)
  readDir {s node i entries} hs hnode hitem := by
    subst hs
    exact h.readDir hr hnode hitem
  readAt {s node i data} off buf hs hnode hitem _ := by
    subst hs
    obtain ⟨head, hholds, hresolved⟩ := h.resolvedHeader hnode
    rw [hitem] at hholds
    cases hholds with
    | file htype hsize hdata =>
      have hlt := s.src.length_lt
      obtain ⟨hin, -⟩ := slice_eq_some.mp hdata
      change Romfs.readAt s node off buf = _
      unfold Romfs.readAt
      rw [hr, hresolved, ok_bind]
      dsimp only [Record.header]
      rw [htype, hsize, if_neg (by decide)]
      by_cases hpast : off ≥ data.length
      · rw [if_pos hpast, windowOf_past hpast]
        rfl
      · rw [if_neg hpast, windowOf_eq rfl]
        have hdisk : u64 (head.dataOff (place i) + off) = .ok _ :=
          fits_eq_ok.mpr ⟨by rw [hr] at hlt; omega, rfl⟩
        rw [hdisk, lift_ok_bind, Source.readAt_part hdata (by omega)]
        rfl
  readLink {s node i target} hs hnode hitem := by
    subst hs
    obtain ⟨head, hholds, hresolved⟩ := h.resolvedHeader hnode
    rw [hitem] at hholds
    cases hholds with
    | link htype hsize hcap hdata =>
      change Romfs.readLink s node = _
      unfold Romfs.readLink
      rw [hr, hresolved, ok_bind]
      dsimp only [Record.header]
      rw [if_neg (not_not.mpr htype), hsize, checkedFullReadLen_eq_ok.mpr ⟨hcap, rfl⟩, lift_ok_bind,
        Source.readAt_eq_ok.mpr hdata]
      rfl

end Stores

/-- A volume that stores files is opened, and presents them. -/
theorem romfs_presents (h : Stores src g place) :
    ∃ r, mount src = .ok r ∧ Presents frontend g r := by
  obtain ⟨r, hmount, hr, hroot⟩ := h.mount
  exact ⟨r, hmount, (h.serves hr hroot).presents rfl⟩

end Volumes

theorem named_dot : Named [0x2E] := ⟨by decide, by decide, by decide⟩

theorem named_a : Named [0x61] := ⟨by decide, by decide, by decide⟩

theorem named_b : Named [0x62] := ⟨by decide, by decide, by decide⟩

theorem named_c : Named [0x63] := ⟨by decide, by decide, by decide⟩

/-- The directory, at 32. -/
def letterRoot : Record := ⟨4, false, 1, 32, 0, 0, [0x2E], named_dot⟩

/-- The file `a`, at 64, with its data behind it. -/
def letterFile : Record := ⟨7, true, 2, 0, 2, 0, [0x61], named_a⟩

/-- The hard link `b` to it, at 112. -/
def letterHard : Record := ⟨9, false, 0, 64, 0, 0, [0x62], named_b⟩

/-- The symbolic link `c`, at 144. -/
def letterLink : Record := ⟨0, false, 3, 0, 1, 0, [0x63], named_c⟩

/-- A directory with `a`, its other name `b`, and the link `c` to `a`. -/
def letterFiles : Files Few where
  root := .root
  item
    | .root => .dir [([0x61], .first), ([0x62], .first), ([0x63], .second)]
    | .first => .file [0x68, 0x69]
    | .second => .link [0x61]

def letterPlace : Few → ℕ
  | .root => 32
  | .first => 64
  | .second => 144

def letterVolume : Source where
  content := volumeHead (List.replicate 8 0) [] ++ letterRoot.encode ++ letterFile.encode ++
    [0x68, 0x69] ++ List.replicate 14 0 ++ letterHard.encode ++ letterLink.encode ++ [0x61]
  length_lt := by decide +kernel

theorem stores_letterVolume : Stores letterVolume letterFiles letterPlace where
  volume := by
    refine ⟨List.replicate 8 0, [], by decide, by decide, by decide, ?_, 0, by decide, .here 32⟩
    unfold letterVolume
    simp only [List.append_assoc]
    exact List.prefix_append _ _
  files i := by
    have hroot : StoredAt letterVolume 32 letterRoot := by decide +kernel
    have hfile : StoredAt letterVolume 64 letterFile := by decide +kernel
    have hhard : StoredAt letterVolume 112 letterHard := by decide +kernel
    have hlink : StoredAt letterVolume 144 letterLink := by decide +kernel
    match i with
    | .root =>
      refine ⟨letterRoot, hroot, .dir (n := 4) (by decide) (by decide) ?_⟩
      refine .dots (by decide) hroot (.inl rfl) ?_
      refine .entry (by decide) hfile (by decide) ⟨0, by decide, .here 64⟩ ?_
      refine .entry (by decide) hhard (by decide) ⟨1, by decide, .hop hhard rfl (.here 64)⟩ ?_
      exact .entry (by decide) hlink (by decide) ⟨0, by decide, .here 144⟩ .stop
    | .first => exact ⟨letterFile, hfile, .file (by decide) (by decide) (by decide +kernel)⟩
    | .second => exact ⟨letterLink, hlink, .link (by decide) (by decide) (by decide) (by decide +kernel)⟩

def letterMount : Romfs := ⟨letterVolume, 32⟩

theorem mount_letterVolume : mount letterVolume = .ok letterMount := by decide +kernel

theorem metadata_letterLink :
    exec (frontend.metadata 144) letterMount = (.ok ⟨.symlink, 1, 0⟩, letterMount) :=
  Prod.ext (by decide +kernel : letterMount.metadata 144 = .ok ⟨.symlink, 1, 0⟩) rfl

theorem readLink_letterLink :
    exec (frontend.readLink 144) letterMount = (.ok (some [0x61]), letterMount) :=
  Prod.ext (by decide +kernel : letterMount.readLink 144 = .ok (some [0x61])) rfl

theorem romfs_presents_letterVolume :
    ∃ r, mount letterVolume = .ok r ∧ Presents frontend letterFiles r :=
  romfs_presents stores_letterVolume

end Lamfold.Romfs
