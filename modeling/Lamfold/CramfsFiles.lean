import Lamfold.CramfsPages
import Lamfold.Presents

/-!
Whole cramfs volumes. A volume stores a graph of files when every file has an inode, a directory
the inodes and names of its entries one after another, and a file or link its pages, each a
stream that inflates to its share of the data, or a hole in place of zeros.
-/
namespace Lamfold.Cramfs

open Effects Bytes Utf8 FileGraph

/-- An inode as it is stored. The length of the name and the place of the data are multiples
of 4. -/
structure Record where
  mode : UInt16
  uid : UInt16
  size : Fin (2 ^ 24)
  gid : UInt8
  namelen : Fin 64
  offset : Fin (2 ^ 26)

namespace Record

variable (r : Record)

def encode : List UInt8 :=
  leBytes 4 (r.uid.toNat * 2 ^ 16 + r.mode.toNat) ++ leBytes 4 (r.gid.toNat * 2 ^ 24 + r.size.val) ++
    leBytes 4 (r.offset.val * 2 ^ 6 + r.namelen.val)

def inode : CrInode := ⟨r.mode.toNat, r.size.val, r.namelen.val * 4, r.offset.val * 4⟩

end Record

abbrev StoredAt (src : Source) (off : ℕ) (r : Record) : Prop :=
  slice src.content off 12 = some r.encode

/-- A word of two fields, the low one of `k` bits. -/
theorem word_fields (a : ℕ) {b k : ℕ} (h : b < 2 ^ k) :
    (a * 2 ^ k + b) &&& (2 ^ k - 1) = b ∧ (a * 2 ^ k + b) >>> k = a := by
  constructor
  · rw [Nat.and_two_pow_sub_one_eq_mod, Nat.mul_comm, Nat.mul_add_mod, Nat.mod_eq_of_lt h]
  · rw [Nat.shiftRight_eq_div_pow, Nat.mul_comm, Nat.mul_add_div (Nat.two_pow_pos k),
      Nat.div_eq_of_lt h, Nat.add_zero]

/-- An inode is read as it is stored. -/
theorem StoredAt.parse {src : Source} {off : ℕ} {r : Record} (h : StoredAt src off r) :
    parseInode src off = .ok r.inode := by
  have hmode := r.mode.toNat_lt
  have huid := r.uid.toNat_lt
  have hsize := r.size.isLt
  have hgid := r.gid.toNat_lt
  have hname := r.namelen.isLt
  have hoff := r.offset.isLt
  have hw0 : leNat (r.encode.take 4) = r.uid.toNat * 2 ^ 16 + r.mode.toNat := by
    unfold Record.encode
    rw [List.append_assoc, List.take_left' (leBytes_length ..), leNat_leBytes (by omega)]
  have hw1 : leNat ((r.encode.drop 4).take 4) = r.gid.toNat * 2 ^ 24 + r.size.val := by
    unfold Record.encode
    rw [List.append_assoc, List.drop_left' (leBytes_length ..), List.take_left' (leBytes_length ..),
      leNat_leBytes (by omega)]
  have hw2 : leNat (r.encode.drop 8) = r.offset.val * 2 ^ 6 + r.namelen.val := by
    unfold Record.encode
    rw [List.drop_left' (by simp only [List.length_append, leBytes_length]),
      leNat_leBytes (by omega)]
  unfold parseInode
  rw [Source.readAt_eq_ok.mpr h, ok_bind]
  dsimp only
  rw [hw0, hw1, hw2]
  have hlow0 : (r.uid.toNat * 2 ^ 16 + r.mode.toNat) &&& 0xFFFF = r.mode.toNat :=
    (word_fields r.uid.toNat hmode).1
  have hlow1 : (r.gid.toNat * 2 ^ 24 + r.size.val) &&& 0x00FFFFFF = r.size.val :=
    (word_fields r.gid.toNat hsize).1
  have hname' : r.namelen.val < 2 ^ 6 := hname
  have hlow2 : (r.offset.val * 2 ^ 6 + r.namelen.val) &&& 0x3F = r.namelen.val :=
    (word_fields r.offset.val hname').1
  rw [hlow0, hlow1, hlow2, (word_fields r.offset.val hname').2]
  rfl

section Pages

variable {ρ : Type} (codecs : Codecs ρ) (src : Source)

/-- The pages of the data stand at `start`, each but the last one full, and end at these
places. -/
inductive Packs : ℕ → List UInt8 → List ℕ → Prop
  | nil {start : ℕ} : Packs start [] []
  | hole {start n : ℕ} {rest : List UInt8} {ends : List ℕ} (hn : 0 < n)
      (hfull : n = min page (n + rest.length)) (hrest : Packs start rest ends) :
      Packs start (List.replicate n 0 ++ rest) (start :: ends)
  | packed {start : ℕ} {comp data rest : List UInt8} {ends : List ℕ} (hne : data ≠ [])
      (hfull : data.length = min page (data.length + rest.length)) (hcomp : comp ≠ [])
      (hstored : slice src.content start comp.length = some comp)
      (hinflate : codecs.inflateZlib comp data.length = some data)
      (hrest : Packs (start + comp.length) rest ends) :
      Packs start (data ++ rest) ((start + comp.length) :: ends)

/-- The data stand at `at_`: the ends of the pages and then the pages. -/
def StoresData (at_ : ℕ) (data : List UInt8) : Prop :=
  ∃ ends : List ℕ, slice src.content at_ (ends.length * 4) = some (ends.flatMap (leBytes 4)) ∧
    Packs codecs src (at_ + ends.length * 4) data ends

variable {codecs src} {start : ℕ} {data : List UInt8} {ends : List ℕ}

theorem Packs.ends_length (h : Packs codecs src start data ends) :
    ends.length = divCeil data.length page := by
  unfold divCeil page
  induction h with
  | nil => rfl
  | hole hn hfull _ ih =>
    unfold page at hfull
    rw [List.length_append, List.length_replicate, List.length_cons]
    omega
  | packed hne hfull _ _ _ _ ih =>
    unfold page at hfull
    have hpos := List.length_pos_iff.mpr hne
    rw [List.length_append, List.length_cons]
    omega

theorem readPage_hole (codecs : Codecs ρ) (src : Source) (start want : ℕ) :
    readPage codecs src start start want = .ok (List.replicate want 0) := if_pos (Nat.le_refl start)

theorem readPage_packed {comp : List UInt8} (hcomp : comp ≠ [])
    (hstored : slice src.content start comp.length = some comp) (hlen : data.length ≤ page)
    (hinflate : codecs.inflateZlib comp data.length = some data) :
    readPage codecs src start (start + comp.length) data.length = .ok data := by
  have hpos := List.length_pos_iff.mpr hcomp
  refine (readPage_eq_ok hlen).mpr ⟨some comp, ?_, hinflate⟩
  unfold storedPage
  rw [if_neg (by omega), Nat.add_sub_cancel_left, Source.readAt_eq_ok.mpr hstored]
  rfl

/-- Entry `before.length` of an index is the end after those before it. -/
theorem ptr_of_append {before after : List ℕ} {stop : ℕ} (hstop : stop < 256 ^ 4) :
    ptr ((before ++ stop :: after).flatMap (leBytes 4)) before.length = .ok stop := by
  have hslice : slice ((before ++ stop :: after).flatMap (leBytes 4)) (before.length * 4) 4 =
      some (leBytes 4 stop) := by
    have hpieces : ∀ xs ∈ (before ++ stop :: after).map (leBytes 4), xs.length = 4 := by
      intro xs hxs
      obtain ⟨n, -, rfl⟩ := List.mem_map.mp hxs
      exact leBytes_length 4 n
    rw [List.flatMap_def]
    refine slice_flatten hpieces ?_
    rw [List.getElem?_map, List.getElem?_append_right (Nat.le_refl _), Nat.sub_self]
    rfl
  unfold ptr
  rw [unwrap_eq_ok.mpr hslice, ok_bind, leNat_leBytes hstop]
  rfl

/-- The pages of the rest of a file are read behind what was read before. -/
theorem Packs.readPages (h : Packs codecs src start data ends) (hstart : start ≤ src.len)
    (hlen : src.len < 256 ^ 4) (before : List ℕ) (out : List UInt8) :
    Cramfs.readPages codecs src ((before ++ ends).flatMap (leBytes 4)) (out.length + data.length)
      (before.length + ends.length) before.length start out = .ok (out ++ data) := by
  induction h generalizing before out with
  | nil =>
    rw [Cramfs.readPages, List.length_nil, Nat.add_zero, if_neg (Nat.lt_irrefl _), List.append_nil]
    rfl
  | @hole start n rest ends hn hfull hrest ih =>
    have hnext := ih hstart (before ++ [start]) (out ++ List.replicate n 0)
    have hwant : min page (out.length + (n + rest.length) - out.length) = n := by omega
    simp only [List.length_append, List.length_replicate, List.length_singleton,
      List.append_assoc, List.singleton_append, Nat.add_assoc] at hnext
    rw [Cramfs.readPages, if_pos (by rw [List.length_cons]; omega), ptr_of_append (by omega),
      lift_ok_bind, List.length_append, List.length_replicate, hwant, readPage_hole, ok_bind,
      List.length_cons, Nat.add_comm ends.length]
    exact hnext
  | @packed start comp data rest ends hne hfull hcomp hstored hinflate hrest ih =>
    have hin : start + comp.length ≤ src.len := (slice_eq_some.mp hstored).1
    have hnext := ih hin (before ++ [start + comp.length]) (out ++ data)
    have hwant : min page (out.length + (data.length + rest.length) - out.length) =
        data.length := by omega
    simp only [List.length_append, List.length_singleton, List.append_assoc, List.singleton_append,
      Nat.add_assoc] at hnext
    rw [Cramfs.readPages, if_pos (by rw [List.length_cons]; omega), ptr_of_append (by omega),
      lift_ok_bind, List.length_append, hwant, readPage_packed hcomp hstored (by omega) hinflate,
      ok_bind, List.length_cons, Nat.add_comm ends.length]
    exact hnext

/-- What is stored is read whole. -/
theorem readWhole_stored {inode : CrInode} (hsize : inode.size = data.length)
    (hcap : data.length < 2 ^ 24) (hlen : src.len < 256 ^ 4)
    (h : StoresData codecs src inode.dataOff data) : readWhole codecs src inode = .ok data := by
  obtain ⟨ends, hends, hpacks⟩ := h
  have hcheck : checkedFullReadLen inode.size = .ok inode.size := by
    refine checkedFullReadLen_eq_ok.mpr ⟨?_, rfl⟩
    unfold maxBootFileBytes
    omega
  unfold readWhole
  rw [hcheck, lift_ok_bind]
  by_cases hempty : inode.size = 0
  · have hnil : data = [] := List.length_eq_zero_iff.mp (hsize.symm.trans hempty)
    rw [if_pos hempty, hnil]
    rfl
  · have hin : inode.dataOff + ends.length * 4 ≤ src.len := (slice_eq_some.mp hends).1
    have hlt := src.length_lt
    have hstart : u64 (inode.dataOff + ends.length * 4) = .ok (inode.dataOff + ends.length * 4) :=
      fits_eq_ok.mpr ⟨Nat.lt_of_le_of_lt hin hlt, rfl⟩
    have hpages := hpacks.readPages hin hlen [] []
    rw [List.nil_append, List.nil_append, List.length_nil, List.length_nil, Nat.zero_add,
      Nat.zero_add] at hpages
    rw [if_neg hempty, hsize, ← hpacks.ends_length]
    dsimp only
    rw [Source.readAt_eq_ok.mpr hends, ok_bind, hstart, lift_ok_bind, hpages, ok_bind, List.take_length]
    rfl

end Pages

section Volumes

variable {ρ ι : Type} (codecs : Codecs ρ) (src : Source) (place : ι → ℕ)

/-- The records of the entries stand from `p` to `stop`: each an inode, which is that of the
file, and the name, which zeros fill up. -/
inductive Listed : ℕ → ℕ → List (Str × ι) → Prop
  | nil {p : ℕ} : Listed p p []
  | entry {p stop n : ℕ} {r : Record} {name : Str} {j : ι} {entries : List (Str × ι)}
      (hstored : StoredAt src p r) (hplace : place j = p) (hnul : 0 ∉ name)
      (hutf8 : isUtf8 name = true) (hlen : name.length + n = r.namelen.val * 4)
      (hname : slice src.content (p + 12) (r.namelen.val * 4) = some (name ++ List.replicate n 0))
      (hrest : Listed (p + (12 + r.namelen.val * 4)) stop entries) :
      Listed p stop ((name, j) :: entries)

/-- An inode and what belongs to it. -/
inductive Holds (r : Record) : Item Str (List UInt8) ι → Prop
  | dir {entries : List (Str × ι)} (hmode : kind r.mode.toNat = .directory)
      (hlisted : Listed src place (r.offset.val * 4) (r.offset.val * 4 + r.size.val) entries) :
      Holds r (.dir entries)
  | file {data : List UInt8} (hmode : kind r.mode.toNat = .regular) (hsize : r.size.val = data.length)
      (hdata : StoresData codecs src (r.offset.val * 4) data) : Holds r (.file data)
  | link {target : List UInt8} (hmode : kind r.mode.toNat = .symlink)
      (hsize : r.size.val = target.length)
      (hdata : StoresData codecs src (r.offset.val * 4) target) : Holds r (.link target)
  | special (hmode : kind r.mode.toNat = .other) : Holds r .special

/-- The volume stores the files, each with its inode at its place. All places fit in 32 bits. -/
structure Stores (g : Files ι) : Prop where
  head : ∃ size flags, size.length = 4 ∧ flags < 2 ^ 32 ∧ flags &&& flagExtBlockPointers = 0 ∧
    leBytes 4 magic ++ size ++ leBytes 4 flags <+: src.content
  root : place g.root = rootInodeOff
  len_lt : src.len < 2 ^ 32
  files : ∀ i, ∃ r, StoredAt src (place i) r ∧ Holds codecs src place r (g.item i)

variable {codecs src place} {g : Files ι} {i : ι}

theorem Listed.le {p stop : ℕ} {entries : List (Str × ι)} (h : Listed src place p stop entries) :
    p ≤ stop := by
  induction h with
  | nil => exact Nat.le_refl _
  | entry _ _ _ _ _ _ _ ih => omega

theorem Holds.kind {r : Record} (h : Holds codecs src place r (g.item i)) :
    Cramfs.kind r.mode.toNat = g.kind i := by
  unfold Files.kind
  generalize g.item i = item at h
  cases h with
  | dir hmode => exact hmode
  | file hmode => exact hmode
  | link hmode => exact hmode
  | special hmode => exact hmode

theorem takeWhile_padded {name : Str} (h : 0 ∉ name) (n : ℕ) :
    (name ++ List.replicate n 0).takeWhile (· ≠ 0) = name := by
  have hall : ∀ b ∈ name, decide (b ≠ 0) = true := by
    intro b hb
    exact decide_eq_true fun hzero => h (hzero ▸ hb)
  rw [List.takeWhile_append_of_pos hall]
  cases n <;> simp [List.replicate_succ]

namespace Stores

theorem mount (h : Stores codecs src place g) : Cramfs.mount src = .ok ⟨src⟩ := by
  obtain ⟨size, flags, hsize, hflags, hext, rest, hrest⟩ := h.head
  obtain ⟨r, hstored, -⟩ := h.files g.root
  have hin : place g.root + 12 ≤ src.len := (slice_eq_some.mp hstored).1
  rw [h.root] at hin
  have hhead : src.readAt 0 12 = .ok (leBytes 4 magic ++ size ++ leBytes 4 flags) := by
    refine Source.readAt_eq_ok.mpr (slice_eq_some.mpr ⟨by unfold Source.len at hin; omega, ?_⟩)
    rw [← hrest, List.drop_zero, List.take_left']
    simp only [List.length_append, leBytes_length, hsize]
  have hmagic : leNat ((leBytes 4 magic ++ size ++ leBytes 4 flags).take 4) = magic := by
    rw [List.append_assoc, List.take_left' (leBytes_length ..), leNat_leBytes (by decide)]
  have hflag : leNat ((leBytes 4 magic ++ size ++ leBytes 4 flags).drop 8) = flags := by
    rw [List.drop_left' (by simp only [List.length_append, leBytes_length, hsize]),
      leNat_leBytes (by omega)]
  unfold Cramfs.mount
  rw [if_neg (by omega), hhead, ok_bind]
  dsimp only
  have hfound : ¬(magic ≠ magic) := fun hne => hne rfl
  rw [hmagic, if_neg hfound, hflag, if_neg (not_not.mpr hext)]
  rfl

theorem readRecords (h : Stores codecs src place g) {p stop : ℕ} {entries : List (Str × ι)}
    (hlisted : Listed src place p stop entries) :
    ∃ es, Cramfs.readRecords src stop p = .ok es ∧
      List.Forall₂ (ListsEntry g fun node i => node = place i) entries es := by
  induction hlisted with
  | nil =>
    refine ⟨[], ?_, .nil⟩
    rw [Cramfs.readRecords, if_neg (Nat.lt_irrefl _)]
    rfl
  | @entry p stop n r name j entries hstored hplace hnul hutf8 hlen hname hrest ih =>
    obtain ⟨es, hes, hlists⟩ := ih
    obtain ⟨child, hchild, hholds⟩ := h.files j
    rw [hplace] at hchild
    have hkind : Cramfs.kind r.mode.toNat = g.kind j := by
      have hsame := Except.ok.inj (hstored.parse.symm.trans hchild.parse)
      have hmode : r.mode.toNat = child.mode.toNat := congrArg CrInode.mode hsame
      rw [hmode]
      exact hholds.kind
    have hin : p + 12 + r.namelen.val * 4 ≤ src.len := (slice_eq_some.mp hname).1
    have hlt := src.length_lt
    have hle : p + (12 + r.namelen.val * 4) < 2 ^ 64 := by
      unfold Source.len at hin
      omega
    have hmore : p < stop := by
      have hnext := hrest.le
      omega
    have hnameOff : u64 (p + 12) = .ok (p + 12) := fits_eq_ok.mpr ⟨by omega, rfl⟩
    have hnext : u64 (p + (12 + r.namelen.val * 4)) = .ok _ := fits_eq_ok.mpr ⟨hle, rfl⟩
    refine ⟨⟨name, p, Cramfs.kind r.mode.toNat⟩ :: es, ?_, .cons ⟨rfl, hplace.symm, hkind⟩ hlists⟩
    rw [Cramfs.readRecords, if_pos hmore, hstored.parse, ok_bind]
    dsimp only [Record.inode]
    rw [hnameOff, lift_ok_bind, Source.readAt_eq_ok.mpr hname, ok_bind, hnext, lift_ok_bind, hes,
      ok_bind, takeWhile_padded hnul, fromUtf8Lossy_of_utf8 hutf8]
    rfl

theorem readDir (h : Stores codecs src place g) {entries : List (Str × ι)}
    (hitem : g.item i = .dir entries) :
    ∃ es, Cramfs.readDir ⟨src⟩ (place i) = .ok es ∧
      List.Forall₂ (ListsEntry g fun node i => node = place i) entries es := by
  obtain ⟨r, hstored, hholds⟩ := h.files i
  rw [hitem] at hholds
  have hsize := r.size.isLt
  have hoff := r.offset.isLt
  cases hholds with
  | dir hmode hlisted =>
    obtain ⟨es, hes, hlists⟩ := h.readRecords hlisted
    have hstop : u64 (r.inode.dataOff + r.inode.size) = .ok _ :=
      fits_eq_ok.mpr ⟨Nat.lt_of_le_of_lt (Nat.le_refl (r.offset.val * 4 + r.size.val)) (by omega), rfl⟩
    have hkind : Cramfs.kind r.inode.mode = .directory := hmode
    refine ⟨es, ?_, hlists⟩
    unfold Cramfs.readDir
    rw [hstored.parse, ok_bind, if_neg (not_not.mpr hkind), hstop]
    exact hes

/-- The data of a file or a link are read whole. -/
theorem readWhole (h : Stores codecs src place g) {r : Record} {data : List UInt8}
    (hsize : r.size.val = data.length) (hdata : StoresData codecs src (r.offset.val * 4) data) :
    Cramfs.readWhole codecs src r.inode = .ok data :=
  readWhole_stored hsize (hsize ▸ r.size.isLt) h.len_lt hdata

/-- Every method answers as the graph does. -/
theorem serves (h : Stores codecs src place g) :
    Serves (frontend codecs) g (· = ⟨src⟩) fun _ node i => node = place i where
  later c s hs := ⟨(frontend_keeps codecs (· = ⟨src⟩)).after c hs, fun hat => hat⟩
  root _ := h.root.symm
  metadata {s node i} hs hnode := by
    subst hs hnode
    obtain ⟨r, hstored, hholds⟩ := h.files i
    refine ⟨⟨Cramfs.kind r.mode.toNat, r.size.val, r.mode.toNat &&& 0o7777⟩, ?_, hholds.kind, ?_⟩
    · change Cramfs.metadata ⟨src⟩ (place i) = _
      unfold Cramfs.metadata
      rw [hstored.parse]
      rfl
    · intro data hitem
      rw [hitem] at hholds
      cases hholds with
      | file _ hsize => exact hsize
  lookup {s node i} name hs hnode hdir := by
    subst hs hnode
    obtain ⟨entries, hitem⟩ := Files.kind_directory.mp hdir
    obtain ⟨es, hes, hlists⟩ := h.readDir hitem
    refine ⟨entryNamed es name, ?_, ListsEntry.entryNamed hlists hitem name⟩
    change Cramfs.lookup ⟨src⟩ (place i) name = _
    unfold Cramfs.lookup
    rw [hes]
    rfl
  lookup_other {s node i} name child hs hnode hother hlookup := by
    subst hs hnode
    obtain ⟨r, hstored, hholds⟩ := h.files i
    change Cramfs.lookup ⟨src⟩ (place i) name = _ at hlookup
    obtain ⟨es, hes, -⟩ := bind_eq_ok.mp hlookup
    unfold Cramfs.readDir at hes
    rw [hstored.parse, ok_bind] at hes
    have hmode := not_not.mp (ite_error_eq_ok.mp hes).1
    exact hother (hholds.kind ▸ hmode)
  readDir {s node i entries} hs hnode hitem := by
    subst hs hnode
    exact h.readDir hitem
  readAt {s node i data} off buf hs hnode hitem _ := by
    subst hs hnode
    obtain ⟨r, hstored, hholds⟩ := h.files i
    rw [hitem] at hholds
    cases hholds with
    | file hmode hsize hdata =>
      have hwhole := h.readWhole hsize hdata
      change Cramfs.readAt codecs ⟨src⟩ (place i) off buf = _
      unfold Cramfs.readAt
      rw [hstored.parse, ok_bind]
      change (if Cramfs.kind r.mode.toNat = .directory then _ else if off ≥ r.size.val then _ else _) = _
      rw [hmode, if_neg FileKind.noConfusion, hsize]
      by_cases hpast : off ≥ data.length
      · rw [if_pos hpast, windowOf_past hpast]
        rfl
      · have hwindow : slice data off (min buf.length (data.length - off)) = some _ :=
          slice_eq_some.mpr ⟨by omega, rfl⟩
        rw [if_neg hpast, windowOf_eq rfl, hwhole, ok_bind]
        dsimp only
        rw [unwrap_eq_ok.mpr hwindow]
        rfl
  readLink {s node i target} hs hnode hitem := by
    subst hs hnode
    obtain ⟨r, hstored, hholds⟩ := h.files i
    rw [hitem] at hholds
    cases hholds with
    | link hmode hsize hdata =>
      change Cramfs.readLink codecs ⟨src⟩ (place i) = _
      have hkind : Cramfs.kind r.inode.mode = .symlink := hmode
      unfold Cramfs.readLink
      rw [hstored.parse, ok_bind, if_neg (not_not.mpr hkind), h.readWhole hsize hdata]
      rfl

end Stores

/-- A volume that stores files is opened, and presents them. -/
theorem cramfs_presents (h : Stores codecs src place g) :
    mount src = .ok ⟨src⟩ ∧ Presents (frontend codecs) g ⟨src⟩ :=
  ⟨h.mount, h.serves.presents rfl⟩

end Volumes

def letterRoot : Record := ⟨0x41ED, 0, 32, 0, 0, 19⟩

/-- The file `a`, at 76. -/
def letterFile : Record := ⟨0x81A4, 0, 1, 0, 1, 27⟩

/-- The link `b`, at 92. -/
def letterLink : Record := ⟨0xA1FF, 0, 1, 0, 1, 28⟩

/-- A directory with a file `a` that holds a zero, which is stored as a hole, and a link `b` to
it. -/
def letterFiles : Files Few where
  root := .root
  item
    | .root => .dir [([0x61], .first), ([0x62], .second)]
    | .first => .file [0]
    | .second => .link [0x61]

def letterPlace : Few → ℕ
  | .root => 64
  | .first => 76
  | .second => 92

def letterVolume : Source where
  content := leBytes 4 magic ++ List.replicate 60 0 ++ letterRoot.encode ++
    letterFile.encode ++ [0x61, 0, 0, 0] ++ letterLink.encode ++ [0x62, 0, 0, 0] ++
    leBytes 4 112 ++ leBytes 4 128 ++ letterStream
  length_lt := by decide +kernel

theorem stores_letterVolume : Stores letterZlib letterVolume letterPlace letterFiles where
  head := by
    refine ⟨List.replicate 4 0, 0, by decide, by decide, by decide, ?_⟩
    decide +kernel
  root := rfl
  len_lt := by decide +kernel
  files i := by
    have hfile : StoredAt letterVolume 76 letterFile := by decide +kernel
    have hlink : StoredAt letterVolume 92 letterLink := by decide +kernel
    match i with
    | .root =>
      refine ⟨letterRoot, by decide +kernel, .dir (by decide) ?_⟩
      refine .entry (n := 3) hfile rfl (by decide) (by decide) (by decide) (by decide +kernel) ?_
      exact .entry (n := 3) hlink rfl (by decide) (by decide) (by decide) (by decide +kernel) .nil
    | .first =>
      refine ⟨letterFile, hfile, .file (by decide) (by decide) ⟨[112], by decide +kernel, ?_⟩⟩
      exact .hole (n := 1) (by decide) (by decide) .nil
    | .second =>
      refine ⟨letterLink, hlink, .link (by decide) (by decide) ⟨[128], by decide +kernel, ?_⟩⟩
      have hpages : Packs letterZlib letterVolume 116 ([0x61] ++ []) [116 + letterStream.length] :=
        .packed (by decide) (by decide) (by decide) (by decide +kernel) (by decide) .nil
      exact hpages

theorem cramfs_presents_letterVolume :
    mount letterVolume = .ok ⟨letterVolume⟩ ∧
      Presents (frontend letterZlib) letterFiles ⟨letterVolume⟩ :=
  cramfs_presents stores_letterVolume

end Lamfold.Cramfs
