import Lamfold.ErofsOffsets

/-!
EROFS directories, written and read back. A block has its dirents, then the names they
are for, back to back; how many there are is known from the first name's offset, and the
length of a name from the next one's.
-/
namespace Lamfold.Erofs

open Effects Bytes Utf8

/-- A directory entry, with the byte of its dirent that is not read. -/
structure Entry where
  nid : NodeId
  nid_lt : nid < 2 ^ 64
  fileType : UInt8
  reserved : UInt8
  name : Str
  name_ne : name ≠ []
  name_utf8 : isUtf8 name = true
  no_nul : 0 ∉ name

namespace Entry

/-- The dirent of an entry with its name at `nameoff`. -/
def dirent (e : Entry) (nameoff : ℕ) : List UInt8 :=
  leBytes 8 e.nid ++ leBytes 2 nameoff ++ [e.fileType, e.reserved]

theorem dirent_length (e : Entry) (nameoff : ℕ) : (e.dirent nameoff).length = 12 := by
  simp [dirent]

/-- Neither the directory itself nor its parent. -/
def Listed (e : Entry) : Bool := e.name ≠ [0x2E] ∧ e.name ≠ [0x2E, 0x2E]

def toDirEntry (e : Entry) : DirEntry := ⟨e.name, e.nid, fileTypeKind e.fileType⟩

end Entry

/-- The dirents of entries with their names from `nameoff` on. -/
def dirents (nameoff : ℕ) : List Entry → List UInt8
  | [] => []
  | e :: entries => e.dirent nameoff ++ dirents (nameoff + e.name.length) entries

def names (entries : List Entry) : List UInt8 := entries.flatMap Entry.name

/-- A block without its padding. -/
def blockContent (entries : List Entry) : List UInt8 :=
  dirents (entries.length * 12) entries ++ names entries

/-- A block with `padding` zero bytes. -/
def padBlock (entries : List Entry) (padding : ℕ) : List UInt8 :=
  blockContent entries ++ List.replicate padding 0

/-- The data of a directory: every block but the last is padded to its end. -/
def directoryData (blockSize : ℕ) (blocks : List (List Entry)) (last : List Entry) : List UInt8 :=
  blocks.flatMap (fun entries => padBlock entries (blockSize - (blockContent entries).length)) ++
    blockContent last

/-- What is listed of some entries. -/
def listing (entries : List Entry) : List DirEntry :=
  (entries.filter Entry.Listed).map Entry.toDirEntry

theorem dirents_length (nameoff : ℕ) (entries : List Entry) :
    (dirents nameoff entries).length = entries.length * 12 := by
  induction entries generalizing nameoff with
  | nil => rfl
  | cons e entries ih =>
    rw [dirents, List.length_append, e.dirent_length, ih, List.length_cons]
    omega

theorem names_append (entries more : List Entry) :
    names (entries ++ more) = names entries ++ names more := List.flatMap_append

theorem names_cons (e : Entry) (entries : List Entry) :
    names (e :: entries) = e.name ++ names entries := List.flatMap_cons

theorem dirents_append (nameoff : ℕ) (entries more : List Entry) :
    dirents nameoff (entries ++ more) =
      dirents nameoff entries ++ dirents (nameoff + (names entries).length) more := by
  induction entries generalizing nameoff with
  | nil => rfl
  | cons e entries ih =>
    rw [List.cons_append, dirents, ih, dirents, List.append_assoc, names_cons,
      List.length_append, Nat.add_assoc]

theorem blockContent_length (entries : List Entry) :
    (blockContent entries).length = entries.length * 12 + (names entries).length := by
  rw [blockContent, List.length_append, dirents_length]

theorem listing_append (entries more : List Entry) :
    listing (entries ++ more) = listing entries ++ listing more := by
  simp [listing]

theorem listing_cons (e : Entry) (entries : List Entry) :
    listing (e :: entries) = (if e.Listed then [e.toDirEntry] else []) ++ listing entries := by
  unfold listing
  by_cases h : e.Listed
  · rw [if_pos h, List.filter_cons_of_pos h]
    rfl
  · rw [if_neg h, List.filter_cons_of_neg h]
    rfl

/-- The bytes before a NUL, or before the end. -/
theorem takeWhile_name (e : Entry) (k : ℕ) :
    (e.name ++ List.replicate k 0).takeWhile (· ≠ 0) = e.name := by
  have hname : ∀ b ∈ e.name, decide (b ≠ 0) = true := by
    intro b hb
    apply decide_eq_true
    rintro rfl
    exact e.no_nul hb
  rw [List.takeWhile_append_of_pos hname]
  cases k with
  | zero => simp
  | succ k => simp [List.replicate_succ]

/-- A name and those after it, behind the dirents and the names before it. -/
theorem padBlock_name (pre post : List Entry) (e : Entry) (padding : ℕ) :
    padBlock (pre ++ e :: post) padding =
      (dirents ((pre ++ e :: post).length * 12) (pre ++ e :: post) ++ names pre) ++ e.name ++
        (names post ++ List.replicate padding 0) := by
  simp only [padBlock, blockContent, names_append, names_cons, List.append_assoc]

/-- A dirent, behind those before it. -/
theorem padBlock_dirent (pre post : List Entry) (e : Entry) (padding : ℕ) :
    padBlock (pre ++ e :: post) padding =
      dirents ((pre ++ e :: post).length * 12) pre ++
        e.dirent ((pre ++ e :: post).length * 12 + (names pre).length) ++
          (dirents ((pre ++ e :: post).length * 12 + (names pre).length + e.name.length) post ++
            names (pre ++ e :: post) ++ List.replicate padding 0) := by
  simp only [padBlock, blockContent, dirents_append, dirents, List.append_assoc]

/-- The name of an entry starts in its block. -/
theorem nameoff_lt (pre post : List Entry) (e : Entry) (padding : ℕ) :
    (pre ++ e :: post).length * 12 + (names pre).length <
      (padBlock (pre ++ e :: post) padding).length := by
  have hpos := List.length_pos_iff.mpr e.name_ne
  simp only [padBlock, List.length_append, blockContent_length, names_append, names_cons]
  omega

/-- The name offset that a dirent has. -/
theorem leU16_nameoff {pre post : List Entry} {e : Entry} {padding : ℕ}
    (hlen : (padBlock (pre ++ e :: post) padding).length ≤ 2 ^ 16) :
    leU16 (padBlock (pre ++ e :: post) padding) (pre.length * 12 + 8) =
      .ok ((pre ++ e :: post).length * 12 + (names pre).length) := by
  have hlt := nameoff_lt pre post e padding
  refine @leAt_of_append 2 _ _ _ _ (dirents ((pre ++ e :: post).length * 12) pre ++ leBytes 8 e.nid)
    ([e.fileType, e.reserved] ++
      (dirents ((pre ++ e :: post).length * 12 + (names pre).length + e.name.length) post ++
        names (pre ++ e :: post) ++ List.replicate padding 0)) ?_ ?_ (by omega)
  · rw [padBlock_dirent]
    simp only [Entry.dirent, List.append_assoc]
  · rw [List.length_append, dirents_length, leBytes_length]

/-- Where the name of a dirent ends, and the bytes up to there. -/
theorem name_of_split {pre post : List Entry} {e : Entry} {padding : ℕ}
    (hlen : (padBlock (pre ++ e :: post) padding).length ≤ 2 ^ 16) :
    ∃ nameEnd k, (if pre.length + 1 < (pre ++ e :: post).length then
        leU16 (padBlock (pre ++ e :: post) padding) ((pre.length + 1) * 12 + 8)
      else .ok (padBlock (pre ++ e :: post) padding).length) = .ok nameEnd ∧
      sliceRange (padBlock (pre ++ e :: post) padding)
        ((pre ++ e :: post).length * 12 + (names pre).length) nameEnd =
          some (e.name ++ List.replicate k 0) := by
  have hstart : (pre ++ e :: post).length * 12 + (names pre).length =
      (dirents ((pre ++ e :: post).length * 12) (pre ++ e :: post) ++ names pre).length := by
    simp only [List.length_append, dirents_length]
  cases post with
  | nil =>
    refine ⟨_, padding, if_neg (by simp), ?_⟩
    refine @sliceRange_of_append _ _ _ (e.name ++ List.replicate padding 0) [] _ _ ?_ hstart ?_
    · rw [padBlock_name]
      simp [names]
    · simp only [padBlock, blockContent_length, names_append, names_cons, List.length_append]
      simp only [names, List.flatMap_nil, List.length_nil]
      omega
  | cons next post =>
    have hnext : pre ++ e :: next :: post = (pre ++ [e]) ++ next :: post := by simp
    have hoff : leU16 (padBlock (pre ++ e :: next :: post) padding) ((pre.length + 1) * 12 + 8) =
        .ok ((pre ++ e :: next :: post).length * 12 + (names (pre ++ [e])).length) := by
      have h := @leU16_nameoff (pre ++ [e]) post next padding (by rwa [← hnext])
      rwa [← hnext, List.length_append, List.length_singleton] at h
    refine ⟨_, 0, (if_pos (by simp)).trans hoff, ?_⟩
    refine @sliceRange_of_append _ _ _ (e.name ++ List.replicate 0 0)
      (names (next :: post) ++ List.replicate padding 0) _ _ ?_ hstart ?_
    · rw [padBlock_name, List.replicate_zero, List.append_nil]
    · rw [names_append, List.length_append, List.replicate_zero, List.append_nil, Nat.add_assoc]
      simp [names]

/-- A dirent is read with its own name. -/
theorem dirent_of_split {pre post : List Entry} {e : Entry} {padding : ℕ}
    (hlen : (padBlock (pre ++ e :: post) padding).length ≤ 2 ^ 16) :
    dirent (padBlock (pre ++ e :: post) padding) (pre ++ e :: post).length pre.length =
      .ok (if e.Listed then some e.toDirEntry else none) := by
  obtain ⟨nameEnd, k, hend, hraw⟩ := name_of_split hlen
  have hjoin : ∀ f : ℕ → Outcome (Option DirEntry),
      (if pre.length + 1 < (pre ++ e :: post).length then
        leU16 (padBlock (pre ++ e :: post) padding) ((pre.length + 1) * 12 + 8) >>= f
      else .ok (padBlock (pre ++ e :: post) padding).length >>= f) = f nameEnd := by
    intro f
    split_ifs at hend ⊢
    · rw [hend, ok_bind]
    · rw [hend, ok_bind]
  have hnid : leU64 (padBlock (pre ++ e :: post) padding) (pre.length * 12) = .ok e.nid := by
    refine @leAt_of_append 8 _ _ _ _ (dirents ((pre ++ e :: post).length * 12) pre)
      (leBytes 2 ((pre ++ e :: post).length * 12 + (names pre).length) ++ [e.fileType, e.reserved] ++
        (dirents ((pre ++ e :: post).length * 12 + (names pre).length + e.name.length) post ++
          names (pre ++ e :: post) ++ List.replicate padding 0)) ?_ (dirents_length ..).symm
      e.nid_lt
    rw [padBlock_dirent]
    simp only [Entry.dirent, List.append_assoc]
  have htype : (padBlock (pre ++ e :: post) padding)[pre.length * 12 + 10]? = some e.fileType := by
    refine @getElem?_of_append _ _ (dirents ((pre ++ e :: post).length * 12) pre ++
      leBytes 8 e.nid ++ leBytes 2 ((pre ++ e :: post).length * 12 + (names pre).length))
      (e.reserved ::
        (dirents ((pre ++ e :: post).length * 12 + (names pre).length + e.name.length) post ++
          names (pre ++ e :: post) ++ List.replicate padding 0)) _ _ ?_ ?_
    · rw [padBlock_dirent]
      simp only [Entry.dirent, List.append_assoc, List.cons_append, List.nil_append]
    · simp only [List.length_append, dirents_length, leBytes_length]
  unfold dirent
  rw [hnid, ok_bind, leU16_nameoff hlen, ok_bind, htype, okOr, ok_bind]
  dsimp only
  rw [hjoin, hraw, okOr, ok_bind, takeWhile_name]
  by_cases hlisted : e.Listed
  · have hname : ¬(e.name = [] ∨ e.name = [0x2E] ∨ e.name = [0x2E, 0x2E]) := by
      simp [e.name_ne]
      simpa [Entry.Listed] using hlisted
    rw [if_neg hname, if_pos hlisted, fromUtf8Lossy_of_utf8 e.name_utf8]
    rfl
  · have hname : e.name = [] ∨ e.name = [0x2E] ∨ e.name = [0x2E, 0x2E] := by
      simp [Entry.Listed] at hlisted
      tauto
    rw [if_pos hname, if_neg hlisted]
    rfl

/-- The dirents of a block, one after another. -/
theorem mapM_dirent {entries : List Entry} {padding : ℕ}
    (hlen : (padBlock entries padding).length ≤ 2 ^ 16) :
    (List.range entries.length).mapM (dirent (padBlock entries padding) entries.length) =
      .ok (entries.map fun e => if e.Listed then some e.toDirEntry else none) := by
  have hlist : (List.range entries.length).map
      (fun i => (entries[i]?).bind fun e => if e.Listed then some e.toDirEntry else none) =
        entries.map fun e => if e.Listed then some e.toDirEntry else none := by
    apply List.ext_getElem?
    intro i
    rw [List.getElem?_map, List.getElem?_map]
    by_cases hi : i < entries.length
    · rw [List.getElem?_range hi, List.getElem?_eq_getElem hi, Option.map_some, Option.map_some,
        List.getElem?_eq_getElem hi, Option.bind_some]
    · rw [List.getElem?_eq_none (by simpa using hi), List.getElem?_eq_none (by simpa using hi)]
      rfl
  rw [← hlist]
  apply mapM_eq_ok_map
  intro i hi
  have hi := List.mem_range.mp hi
  have hsplit : entries = entries.take i ++ entries[i] :: entries.drop (i + 1) := by
    rw [List.getElem_cons_drop, List.take_append_drop]
  have hdirent := @dirent_of_split (entries.take i) (entries.drop (i + 1)) entries[i] padding
    (by rwa [← hsplit])
  rw [← hsplit, List.length_take, Nat.min_eq_left hi.le] at hdirent
  rw [hdirent, List.getElem?_eq_getElem hi, Option.bind_some]

theorem filterMap_listed (entries : List Entry) :
    (entries.map fun e => if e.Listed then some e.toDirEntry else none).filterMap id =
      listing entries := by
  induction entries with
  | nil => rfl
  | cons e entries ih =>
    rw [List.map_cons, listing_cons]
    by_cases hlisted : e.Listed
    · rw [if_pos hlisted, if_pos hlisted, @List.filterMap_cons_some _ _ id _ _ _ rfl, ih]
      rfl
    · rw [if_neg hlisted, if_neg hlisted, @List.filterMap_cons_none _ _ id _ _ rfl, ih]
      rfl

/-- A block is read back, whatever its padding. -/
theorem parseDirBlock_padBlock {entries : List Entry} {padding : ℕ}
    (hlen : (padBlock entries padding).length ≤ 2 ^ 16) :
    parseDirBlock (padBlock entries padding) = .ok (listing entries) := by
  unfold parseDirBlock
  cases entries with
  | nil =>
    have hzeros : padBlock [] padding = List.replicate padding 0 := rfl
    by_cases hshort : (padBlock [] padding).length < 12
    · rw [if_pos hshort]
      rfl
    · have hfirst : leU16 (padBlock [] padding) 8 = .ok 0 := by
        have hpadding : 12 ≤ padding := by
          rw [hzeros, List.length_replicate] at hshort
          omega
        refine @leAt_of_append 2 _ 0 _ _ (List.replicate 8 0) (List.replicate (padding - 10) 0) ?_
          List.length_replicate.symm (by decide)
        have htwo : leBytes 2 0 = List.replicate 2 0 := rfl
        rw [hzeros, htwo, List.replicate_append_replicate, List.replicate_append_replicate]
        exact congrArg (List.replicate · 0) (by omega)
      rw [if_neg hshort, hfirst]
      rfl
  | cons e entries =>
    have hlong : ¬(padBlock (e :: entries) padding).length < 12 := by
      simp only [padBlock, List.length_append, blockContent_length, List.length_cons]
      omega
    have hfirst := @leU16_nameoff [] entries e padding hlen
    have hcount : ((e :: entries).length * 12 + (names []).length) / 12 = (e :: entries).length :=
      Nat.mul_div_cancel _ (by decide)
    rw [List.length_nil, Nat.zero_mul, Nat.zero_add, List.nil_append] at hfirst
    rw [if_neg hlong, hfirst, ok_bind]
    dsimp only
    rw [hcount, mapM_dirent hlen, ok_bind, filterMap_listed]
    rfl

/-- The blocks of a directory are read back one after another. -/
theorem parseDirData_directoryData (vol : Volume) {blocks : List (List Entry)} {last : List Entry}
    (hblocks : ∀ entries ∈ blocks, (blockContent entries).length ≤ vol.blockSize)
    (hlast : (blockContent last).length ≤ vol.blockSize) :
    parseDirData vol (directoryData vol.blockSize blocks last) =
      .ok (listing (blocks.flatten ++ last)) := by
  have hbs : vol.blockSize ≤ 2 ^ 16 := Nat.pow_le_pow_right (by decide) vol.blkszbits_range.2
  have hpos := vol.blockSize_pos
  induction blocks with
  | nil =>
    have hdata : directoryData vol.blockSize [] last = padBlock last 0 := by
      simp [directoryData, padBlock]
    have hlen : (padBlock last 0).length ≤ vol.blockSize := by
      simpa [padBlock] using hlast
    rw [hdata, List.flatten_nil, List.nil_append, parseDirData]
    by_cases hempty : padBlock last 0 = []
    · have hnone : last = [] := by
        have hlen := congrArg List.length hempty
        simp only [padBlock, List.length_append, blockContent_length, List.length_nil] at hlen
        exact List.eq_nil_of_length_eq_zero (by omega)
      rw [if_pos hempty, hnone]
      rfl
    · rw [if_neg hempty, List.take_of_length_le hlen, List.drop_of_length_le hlen,
        parseDirBlock_padBlock (hlen.trans hbs), ok_bind, parseDirData, if_pos rfl, ok_bind,
        List.append_nil]
      rfl
  | cons entries blocks ih =>
    have hfits := hblocks entries List.mem_cons_self
    have hlen : (padBlock entries (vol.blockSize - (blockContent entries).length)).length =
        vol.blockSize := by
      rw [padBlock, List.length_append, List.length_replicate]
      omega
    have hdata : directoryData vol.blockSize (entries :: blocks) last =
        padBlock entries (vol.blockSize - (blockContent entries).length) ++
          directoryData vol.blockSize blocks last := by
      simp only [directoryData, List.flatMap_cons, List.append_assoc]
    have hne : directoryData vol.blockSize (entries :: blocks) last ≠ [] := by
      rw [hdata]
      intro hnil
      rw [(List.append_eq_nil_iff.mp hnil).1] at hlen
      exact hpos.ne hlen
    rw [parseDirData, if_neg hne, hdata, List.take_left' hlen, List.drop_left' hlen,
      parseDirBlock_padBlock (hlen.trans_le hbs), ok_bind,
      ih fun e he => hblocks e (List.mem_cons_of_mem _ he), ok_bind, List.flatten_cons,
      List.append_assoc, listing_append entries]
    rfl

/-- The name is that of bytes of the block. -/
def NameWithin (block : List UInt8) (name : Str) : Prop :=
  ∃ off n bytes, slice block off n = some bytes ∧ name = fromUtf8Lossy bytes

/-- The name is that of bytes of one of the data's blocks. -/
def NameInBlocks (blockSize : ℕ) (data : List UInt8) (name : Str) : Prop :=
  ∃ start, blockSize ∣ start ∧ NameWithin ((data.drop start).take blockSize) name

/-- What a corrupt block raises. -/
abbrev Corrupt (e : FoldError) : Prop := ∃ what, e = .corrupt what

theorem corrupt_leAt {n o : ℕ} {what : String} {bytes : List UInt8} :
    RaisesOnly Corrupt (leAt n what bytes o) :=
  RaisesOnly.bind (.okOr ⟨_, rfl⟩) fun _ _ => .ok _

theorem corrupt_dirent {block : List UInt8} {count i : ℕ} :
    RaisesOnly Corrupt (dirent block count i) := by
  have hname : ∀ nameoff nameEnd, RaisesOnly Corrupt (okOr (sliceRange block nameoff nameEnd)
      (.corrupt "erofs: dirent name OOB")) := fun _ _ => .okOr ⟨_, rfl⟩
  refine RaisesOnly.bind corrupt_leAt fun nid _ => ?_
  refine RaisesOnly.bind corrupt_leAt fun nameoff _ => ?_
  refine RaisesOnly.bind (.okOr ⟨_, rfl⟩) fun fileType _ => ?_
  dsimp only
  split
  · refine RaisesOnly.bind corrupt_leAt fun nameEnd _ => ?_
    exact RaisesOnly.bind (hname nameoff nameEnd) fun raw _ =>
      RaisesOnly.ite (fun _ => .ok _) fun _ => .ok _
  · refine RaisesOnly.bind (.ok _) fun nameEnd _ => ?_
    exact RaisesOnly.bind (hname nameoff nameEnd) fun raw _ =>
      RaisesOnly.ite (fun _ => .ok _) fun _ => .ok _

theorem corrupt_parseDirData (vol : Volume) (data : List UInt8) :
    RaisesOnly Corrupt (parseDirData vol data) := by
  fun_induction parseDirData vol data with
  | case1 => exact .ok _
  | case2 data _ ih =>
    refine RaisesOnly.bind ?_ fun entries _ => RaisesOnly.bind ih fun rest _ => .ok _
    refine RaisesOnly.ite (fun _ => .ok _) fun _ => ?_
    refine RaisesOnly.bind corrupt_leAt fun firstNameoff _ => ?_
    exact RaisesOnly.bind (.mapM fun i => corrupt_dirent) fun entries _ => .ok _

/-- What a dirent is left with when its name's bytes are found. -/
theorem name_of_raw {block raw : List UInt8} {nameoff nameEnd : ℕ} {nid : NodeId}
    {kind : FileKind} {e : DirEntry} (hraw : sliceRange block nameoff nameEnd = some raw)
    (h : (if raw.takeWhile (· ≠ 0) = [] ∨ raw.takeWhile (· ≠ 0) = [0x2E] ∨
        raw.takeWhile (· ≠ 0) = [0x2E, 0x2E] then return none
      else return some ⟨fromUtf8Lossy (raw.takeWhile (· ≠ 0)), nid, kind⟩ : Outcome _) =
        .ok (some e)) : NameWithin block e.name := by
  obtain ⟨hle, hend, rfl⟩ := sliceRange_eq_some.mp hraw
  split at h
  · cases h
  · cases h
    generalize hname : ((block.drop nameoff).take (nameEnd - nameoff)).takeWhile (· ≠ 0) = name
    obtain ⟨rest, hrest⟩ := List.takeWhile_prefix (l := (block.drop nameoff).take
      (nameEnd - nameoff)) (fun b : UInt8 => decide (b ≠ 0))
    rw [hname] at hrest
    have hlen := congrArg List.length hrest
    rw [List.length_append, List.length_take, List.length_drop] at hlen
    refine ⟨nameoff, name.length, name, slice_eq_some.mpr ⟨by omega, ?_⟩, rfl⟩
    have htake := congrArg (List.take name.length) hrest
    rw [List.take_left, List.take_take, Nat.min_eq_left (by omega)] at htake
    exact htake.symm

theorem dirent_name {block : List UInt8} {count i : ℕ} {e : DirEntry}
    (h : dirent block count i = .ok (some e)) : NameWithin block e.name := by
  obtain ⟨nid, -, h⟩ := bind_eq_ok.mp h
  obtain ⟨nameoff, -, h⟩ := bind_eq_ok.mp h
  obtain ⟨fileType, -, h⟩ := bind_eq_ok.mp h
  dsimp only at h
  split at h
  · obtain ⟨nameEnd, -, h⟩ := bind_eq_ok.mp h
    obtain ⟨raw, hraw, h⟩ := bind_eq_ok.mp h
    exact name_of_raw (okOr_eq_ok.mp hraw) h
  · obtain ⟨nameEnd, -, h⟩ := bind_eq_ok.mp h
    obtain ⟨raw, hraw, h⟩ := bind_eq_ok.mp h
    exact name_of_raw (okOr_eq_ok.mp hraw) h

theorem parseDirBlock_names {block : List UInt8} {entries : List DirEntry}
    (h : parseDirBlock block = .ok entries) : ∀ e ∈ entries, NameWithin block e.name := by
  unfold parseDirBlock at h
  split at h
  · obtain rfl := Except.ok.inj h
    intro e he
    cases he
  · obtain ⟨firstNameoff, -, h⟩ := bind_eq_ok.mp h
    obtain ⟨found, hfound, h⟩ := bind_eq_ok.mp h
    obtain rfl := Except.ok.inj h
    intro e he
    obtain ⟨some_e, hmem, rfl⟩ := List.mem_filterMap.mp he
    obtain ⟨i, -, hdirent⟩ := mem_of_mapM hfound hmem
    exact dirent_name hdirent

theorem parseDirData_names {vol : Volume} {data : List UInt8} {entries : List DirEntry}
    (h : parseDirData vol data = .ok entries) :
    ∀ e ∈ entries, NameInBlocks vol.blockSize data e.name := by
  fun_induction parseDirData vol data generalizing entries with
  | case1 =>
    obtain rfl := Except.ok.inj h
    intro e he
    cases he
  | case2 data _ ih =>
    obtain ⟨first, hfirst, h⟩ := bind_eq_ok.mp h
    obtain ⟨rest, hrest, h⟩ := bind_eq_ok.mp h
    obtain rfl := Except.ok.inj h
    intro e he
    rcases List.mem_append.mp he with he | he
    · exact ⟨0, Nat.dvd_zero _, parseDirBlock_names hfirst e he⟩
    · obtain ⟨start, hdvd, hname⟩ := ih hrest e he
      refine ⟨vol.blockSize + start, Nat.dvd_add (Nat.dvd_refl _) hdvd, ?_⟩
      rwa [List.drop_drop] at hname

section Directories

variable {ρ : Type} {codecs : Codecs ρ}

/-- The data of a directory is parsed in every state of the volume. -/
theorem readDir_run {vol : Volume} {fs : Erofs} {dir : NodeId} {inode : Inode} {n : ℕ}
    {data : List UInt8} (hfs : Holds codecs vol fs) (hinode : readInode vol dir = .ok inode)
    (hkind : inode.kind = .directory) (hsize : inode.size ≤ maxBootFileBytes)
    (hdata : inodeData codecs vol inode 0 (List.replicate inode.size 0) = .ok (n, data)) :
    (exec (readDir codecs dir) fs).1 = parseDirData vol data := by
  obtain ⟨t, hparse, -, hcached⟩ := exec_parseInode hfs dir
  rw [hinode] at hparse
  have ht := hcached inode hinode
  have hlen : checkedFullReadLen inode.size = .ok inode.size :=
    checkedFullReadLen_eq_ok.mpr ⟨hsize, rfl⟩
  have hrun := readInodeData_run ht 0 (List.replicate inode.size 0)
  have hkeep := (cacheKept_holdsInode codecs vol dir inode).readInodeData dir 0
    (List.replicate inode.size 0) t ht
  rcases hread : exec (readInodeData codecs dir 0 (List.replicate inode.size 0)) t with ⟨r, u⟩
  rw [hread] at hrun hkeep
  obtain rfl : r = .ok (n, data) := hrun.trans hdata
  have hvol : u.vol = vol := hkeep.vol_eq
  unfold readDir DataPath.readDir dataPath
  rw [exec_bind_of_ok hparse, exec_bind_of_ok (exec_inode_cached ht), if_neg (not_not.mpr hkind),
    hlen, exec_bind_of_ok (exec_lift _ _), exec_bind_of_ok hread, exec_bind_of_ok (exec_get u), hvol]
  rfl

/-- Above the cap, a directory is not read. -/
theorem readDir_capped {vol : Volume} {fs : Erofs} {dir : NodeId} {inode : Inode}
    (hfs : Holds codecs vol fs) (hinode : readInode vol dir = .ok inode)
    (hkind : inode.kind = .directory) (hsize : maxBootFileBytes < inode.size) :
    (exec (readDir codecs dir) fs).1 =
      .error (.err (.fileTooLarge inode.size maxBootFileBytes)) := by
  obtain ⟨t, hparse, -, hcached⟩ := exec_parseInode hfs dir
  rw [hinode] at hparse
  have ht := hcached inode hinode
  have hlen : checkedFullReadLen inode.size =
      .error (.err (.fileTooLarge inode.size maxBootFileBytes)) := if_pos hsize
  unfold readDir DataPath.readDir dataPath
  rw [exec_bind_of_ok hparse, exec_bind_of_ok (exec_inode_cached ht), if_neg (not_not.mpr hkind),
    hlen]
  rfl

theorem lookup_run {fs : Erofs} {dir : NodeId} {entries : List DirEntry} (name : Str)
    (h : (exec (readDir codecs dir) fs).1 = .ok entries) :
    (exec (lookup codecs dir name) fs).1 = .ok (entryNamed entries name) := by
  rcases hrun : exec (readDir codecs dir) fs with ⟨r, t⟩
  rw [hrun] at h
  obtain rfl : r = .ok entries := h
  change (exec (readDir codecs dir >>= fun entries => pure (entryNamed entries name)) fs).1 = _
  rw [exec_bind_of_ok hrun]
  rfl

/-- The first entry with a name, of those that are listed. -/
theorem entryNamed_listing (entries : List Entry) (name : Str) :
    entryNamed (listing entries) name =
      (entries.find? fun e => e.Listed ∧ e.name = name).map Entry.nid := by
  induction entries with
  | nil => rfl
  | cons e entries ih =>
    rw [listing_cons]
    unfold entryNamed at ih ⊢
    by_cases hlisted : e.Listed
    · rw [if_pos hlisted, List.singleton_append, List.find?_cons, List.find?_cons]
      by_cases hname : e.name = name
      · simp [hlisted, hname, Entry.toDirEntry]
      · simpa [hlisted, hname, Entry.toDirEntry] using ih
    · rw [if_neg hlisted, List.nil_append, ih, List.find?_cons]
      simp [hlisted]

/-- In every state of a volume, a directory of at most 512 MiB is listed with the entries
that are written in its blocks, but for itself and its parent, and a lookup finds the
first of a name. With any other bytes in its blocks it is listed or corrupt, and no name
is read outside its block. A larger one is refused, whatever its blocks hold. -/
theorem readDir_directoryData (codecs : Codecs ρ) {src : Source} {fs t : Erofs} {dir : NodeId}
    {inode : Inode} (hmount : mount src = .ok fs) (hrun : Reaches (frontend codecs) fs t)
    (hinode : readInode fs.vol dir = .ok inode) (hkind : inode.kind = .directory) :
    (inode.size ≤ maxBootFileBytes → ∀ (n : ℕ) (data : List UInt8),
      inodeData codecs fs.vol inode 0 (List.replicate inode.size 0) = .ok (n, data) →
      (∀ (blocks : List (List Entry)) (last : List Entry),
        (∀ entries ∈ blocks, (blockContent entries).length ≤ fs.vol.blockSize) →
        (blockContent last).length ≤ fs.vol.blockSize →
        data = directoryData fs.vol.blockSize blocks last →
        (exec (readDir codecs dir) t).1 =
            .ok (((blocks.flatten ++ last).filter Entry.Listed).map Entry.toDirEntry) ∧
          ∀ name, (exec (lookup codecs dir name) t).1 =
            .ok (((blocks.flatten ++ last).find? fun e =>
              e.Listed ∧ e.name = name).map Entry.nid)) ∧
        ((∃ entries, (exec (readDir codecs dir) t).1 = .ok entries ∧
            ∀ e ∈ entries, NameInBlocks fs.vol.blockSize data e.name) ∨
          ∃ what, (exec (readDir codecs dir) t).1 = .error (.err (.corrupt what)))) ∧
      (maxBootFileBytes < inode.size →
        (exec (readDir codecs dir) t).1 =
          .error (.err (.fileTooLarge inode.size maxBootFileBytes))) := by
  have ht : Holds codecs fs.vol t :=
    hrun.keeps (cacheKept_holds codecs fs.vol).frontend (mount_holds hmount)
  refine ⟨fun hsize n data hdata => ?_, fun hover => readDir_capped ht hinode hkind hover⟩
  have hread := readDir_run ht hinode hkind hsize hdata
  refine ⟨fun blocks last hblocks hlast hwritten => ?_, ?_⟩
  · have hlist : (exec (readDir codecs dir) t).1 = .ok (listing (blocks.flatten ++ last)) := by
      rw [hread, hwritten, parseDirData_directoryData fs.vol hblocks hlast]
    refine ⟨hlist, fun name => ?_⟩
    rw [lookup_run name hlist, entryNamed_listing]
  · rw [hread]
    have hanswered := @answered_parseDirData fs.vol data
    have hcorrupt := corrupt_parseDirData fs.vol data
    cases hparse : parseDirData fs.vol data with
    | ok entries => exact .inl ⟨entries, rfl, parseDirData_names hparse⟩
    | error e =>
      rw [hparse] at hanswered hcorrupt
      cases e with
      | err e =>
        obtain ⟨what, rfl⟩ := hcorrupt e rfl
        exact .inr ⟨what, rfl⟩
      | panic => exact hanswered.elim
      | hang => exact hanswered.elim

end Directories

/-- An inode of a directory whose data starts at block 3. -/
def dirInode (size : ℕ) : List UInt8 :=
  [0, 0, 0, 0, 0, 0x40, 0, 0] ++ leBytes 4 size ++ [0, 0, 0, 0, 3, 0, 0, 0] ++ List.replicate 12 0

theorem dirInode_length (size : ℕ) : (dirInode size).length = 32 := by
  simp [dirInode]

def dirContent (data : List UInt8) : List UInt8 :=
  List.replicate 1024 0 ++ tinySuperblock ++ dirInode data.length ++ List.replicate 352 0 ++ data

theorem tinySuperblock_length : tinySuperblock.length = 128 := by
  simp [tinySuperblock]

theorem dirContent_length_lt {data : List UInt8} (h : data.length < 2 ^ 32) :
    (dirContent data).length < 2 ^ 64 := by
  simp only [dirContent, List.length_append, dirInode_length, List.length_replicate,
    tinySuperblock_length]
  omega

/-- A volume of 512-byte blocks whose root is a directory with the given data. -/
def dirSource (data : List UInt8) (h : data.length < 2 ^ 32) : Source where
  content := dirContent data
  length_lt := dirContent_length_lt h

section DirSource

variable {data : List UInt8}

theorem dirSource_superblock (h : data.length < 2 ^ 32) :
    (dirSource data h).readAt 1024 128 = .ok tinySuperblock := by
  apply Source.readAt_eq_ok.mpr
  refine @slice_of_append _ _ (List.replicate 1024 0) tinySuperblock
    (dirInode data.length ++ List.replicate 352 0 ++ data) _ _ ?_ List.length_replicate.symm
    tinySuperblock_length.symm
  simp only [dirSource, dirContent, List.append_assoc]

theorem dirSource_algs (h : data.length < 2 ^ 32) :
    (dirSource data h).readAt 1108 2 = .ok [0, 0] := by
  apply Source.readAt_eq_ok.mpr
  refine @slice_of_append _ _ (List.replicate 1024 0 ++ tinySuperblock.take 84) [0, 0]
    (tinySuperblock.drop 86 ++ (dirInode data.length ++ List.replicate 352 0 ++ data)) _ _ ?_ ?_ rfl
  · have hsb : tinySuperblock = tinySuperblock.take 84 ++ [0, 0] ++ tinySuperblock.drop 86 := rfl
    simp only [dirSource, dirContent, List.append_assoc]
    conv_lhs => rw [hsb]
    simp only [List.append_assoc]
  · rw [List.length_append, List.length_replicate, List.length_take, tinySuperblock_length]
    rfl

theorem dirSource_inode (h : data.length < 2 ^ 32) :
    (dirSource data h).readAt 1152 32 = .ok (dirInode data.length) := by
  apply Source.readAt_eq_ok.mpr
  refine @slice_of_append _ _ (List.replicate 1024 0 ++ tinySuperblock) (dirInode data.length)
    (List.replicate 352 0 ++ data) _ _ ?_ ?_ (dirInode_length _).symm
  · simp only [dirSource, dirContent, List.append_assoc]
  · rw [List.length_append, List.length_replicate, tinySuperblock_length]

theorem dirSource_data (h : data.length < 2 ^ 32) :
    (dirSource data h).readAt 1536 data.length = .ok data := by
  apply Source.readAt_eq_ok.mpr
  refine @slice_of_append _ _ (List.replicate 1024 0 ++ tinySuperblock ++ dirInode data.length ++
    List.replicate 352 0) data [] _ _ ?_ ?_ rfl
  · rw [List.append_nil]
    rfl
  · simp only [List.length_append, dirInode_length, List.length_replicate, tinySuperblock_length]

def dirRoot (size : ℕ) : Inode := ⟨.directory, size, 0x4000, 0, 3, 1184⟩

theorem openVolume_dirSource (h : data.length < 2 ^ 32) :
    openVolume (dirSource data h) = .ok (tinyVolume (dirSource data h)) := by
  have hlen : ¬(dirSource data h).len < superOffset + 128 := by
    have hin := (slice_eq_some.mp (Source.readAt_eq_ok.mp (dirSource_superblock h))).1
    exact Nat.not_lt.mpr hin
  have hlzma : ∀ off, parseLzmaCfg (dirSource data h) off = .ok none := by
    intro off
    unfold parseLzmaCfg comprAlgsOff
    rw [attempt_bind, dirSource_algs]
    rfl
  have hmagic : leU32 tinySuperblock 0 = .ok magic := by decide +kernel
  have hbits : (tinySuperblock.getD 12 0).toNat = 9 := by decide +kernel
  have hslots : (tinySuperblock.getD 13 0).toNat = 0 := by decide +kernel
  have hincompat : leU32 tinySuperblock 80 = .ok 0 := by decide +kernel
  have hrefuse : refuseUnsupportedFeatures tinySuperblock 0 = .ok () := by decide +kernel
  have hroot : leU16 tinySuperblock 14 = .ok 4 := by decide +kernel
  have hmeta : leU32 tinySuperblock 40 = .ok 2 := by decide +kernel
  have hoff : u64 (2 * 2 ^ 9) = .ok 1024 := by decide
  unfold openVolume
  rw [if_neg hlen, superOffset, dirSource_superblock, ok_bind, hmagic, lift_ok_bind,
    if_neg (not_not.mpr rfl)]
  simp only [hbits, hslots, hincompat, hrefuse, hroot, hmeta, hoff, hlzma, ok_bind,
    lift_ok_bind]
  rfl

theorem readInode_dirSource (h : data.length < 2 ^ 32) :
    readInode (tinyVolume (dirSource data h)) 4 = .ok (dirRoot data.length) := by
  have hoff : inodeOffset (tinyVolume (dirSource data h)) 4 = .ok 1152 := rfl
  have hformat : leU16 (dirInode data.length) 0 = .ok 0 := rfl
  have hbytes : inodeBytes (tinyVolume (dirSource data h)) 1152 = .ok (dirInode data.length) := by
    unfold inodeBytes
    have hread : (tinyVolume (dirSource data h)).src.readAt 1152 32 = .ok (dirInode data.length) :=
      dirSource_inode h
    rw [hread, ok_bind, hformat]
    rfl
  have hsize : leU32 (dirInode data.length) 8 = .ok data.length := by
    refine @leAt_of_append 4 8 _ _ _ [0, 0, 0, 0, 0, 0x40, 0, 0]
      ([0, 0, 0, 0, 3, 0, 0, 0] ++ List.replicate 12 0) ?_ rfl h
    simp only [dirInode, List.append_assoc]
  have hxattr : leU16 (dirInode data.length) 2 = .ok 0 := rfl
  have hmode : leU16 (dirInode data.length) 4 = .ok 0x4000 := by
    have hbytes : leBytes 2 0x4000 = [0, 0x40] := by decide
    refine @leAt_of_append 2 4 _ _ _ [0, 0, 0, 0] ([0, 0] ++ leBytes 4 data.length ++
      [0, 0, 0, 0, 3, 0, 0, 0] ++ List.replicate 12 0) ?_ rfl (by decide)
    rw [hbytes]
    rfl
  have hblock : leU32 (dirInode data.length) 16 = .ok 3 := rfl
  unfold readInode
  rw [hoff, lift_ok_bind, hbytes, ok_bind, hformat, lift_ok_bind, hxattr, lift_ok_bind, hmode,
    lift_ok_bind]
  dsimp only
  rw [if_neg (by decide), hsize, lift_ok_bind, hblock, lift_ok_bind]
  rfl

/-- The volume of a directory, as it is after the mount. -/
def dirMount (data : List UInt8) (h : data.length < 2 ^ 32) : Erofs :=
  ⟨tinyVolume (dirSource data h),
    (∅ : Std.TreeMap NodeId Inode).insert 4 (dirRoot data.length), ∅⟩

theorem mount_dirSource (h : data.length < 2 ^ 32) :
    mount (dirSource data h) = .ok (dirMount data h) :=
  @mount_eq_ok _ (tinyVolume (dirSource data h)) _ (openVolume_dirSource h) (readInode_dirSource h)

theorem inodeData_dirSource {ρ : Type} (codecs : Codecs ρ) (h : data.length < 2 ^ 32)
    (hpos : 0 < data.length) :
    inodeData codecs (dirMount data h).vol (dirRoot data.length) 0
      (List.replicate data.length 0) = .ok (data.length, data) := by
  have hlayout : layoutData codecs (dirMount data h).vol (dirRoot data.length) 0 (0 + data.length) =
      .ok data := by
    have hbase : u64 ((dirRoot data.length).rawBlkaddr * (dirMount data h).vol.blockSize) =
        .ok 1536 := by
      change u64 (3 * 2 ^ 9) = .ok 1536
      decide
    have hflat : (dirRoot data.length).layout = flatPlain := rfl
    have hplain : ¬((dirRoot data.length).layout = compressedFull ∨
        (dirRoot data.length).layout = compressedCompact) := by
      change ¬(0 = compressedFull ∨ 0 = compressedCompact)
      decide
    unfold layoutData
    rw [if_neg hplain, readFlat, if_pos hflat, hbase, lift_ok_bind, Nat.zero_add, Nat.sub_zero]
    exact dirSource_data h
  rw [inodeData_eq List.length_replicate hpos (by rw [Nat.zero_add]; rfl)
    (h.trans (by decide)), hlayout]
  rfl

end DirSource

theorem ascii_utf8 : ∀ c : Fin 127, isUtf8 [UInt8.ofNat (c.val + 1)] = true := by
  decide

theorem ascii_no_nul : ∀ c : Fin 127, 0 ∉ [UInt8.ofNat (c.val + 1)] := by
  decide

/-- A regular file with a name of one ASCII character. -/
def asciiEntry (nid : UInt64) (c : Fin 127) : Entry where
  nid := nid.toNat
  nid_lt := nid.toNat_lt
  fileType := 1
  reserved := 0
  name := [UInt8.ofNat (c.val + 1)]
  name_ne := List.cons_ne_nil _ _
  name_utf8 := ascii_utf8 c
  no_nul := ascii_no_nul c

theorem blockContent_ascii (nid : UInt64) (c : Fin 127) :
    (blockContent [asciiEntry nid c]).length = 13 := rfl

/-- The directory itself and `a` in a block, then `b`. -/
def twoListed : List UInt8 :=
  directoryData 512 [[asciiEntry 4 0x2D, asciiEntry 5 0x60]] [asciiEntry 6 0x61]

theorem twoListed_length : twoListed.length = 525 := by
  decide +kernel

theorem twoListed_lt : twoListed.length < 2 ^ 32 := by
  rw [twoListed_length]
  decide

theorem readDir_directoryData_twoListed :
    (exec (readDir emptyFrames 4) (dirMount twoListed twoListed_lt)).1 =
        .ok [⟨[0x61], 5, .regular⟩, ⟨[0x62], 6, .regular⟩] ∧
      (exec (lookup emptyFrames 4 [0x62]) (dirMount twoListed twoListed_lt)).1 = .ok (some 6) := by
  have hsize : (dirRoot twoListed.length).size ≤ maxBootFileBytes := by
    change twoListed.length ≤ maxBootFileBytes
    rw [twoListed_length]
    decide
  have hpos : 0 < twoListed.length := by
    rw [twoListed_length]
    decide
  have h := ((readDir_directoryData emptyFrames (mount_dirSource twoListed_lt) .refl
    (readInode_dirSource twoListed_lt) rfl).1 hsize _ _
    (inodeData_dirSource emptyFrames twoListed_lt hpos)).1
    [[asciiEntry 4 0x2D, asciiEntry 5 0x60]] [asciiEntry 6 0x61]
  have hfits : ∀ entries ∈ [[asciiEntry 4 0x2D, asciiEntry 5 0x60]],
      (blockContent entries).length ≤ 2 ^ 9 := by
    decide
  obtain ⟨hlist, hlookup⟩ := h hfits (by decide) rfl
  exact ⟨hlist, hlookup [0x62]⟩

/-- One block more than fit in 512 MiB, of one entry each. -/
def overCapBlocks : List (List Entry) := List.replicate (2 ^ 20 + 1) [asciiEntry 5 0x60]

def overCapData : List UInt8 := directoryData 512 overCapBlocks []

theorem overCapData_length : overCapData.length = (2 ^ 20 + 1) * 512 := by
  have hblocks : overCapData = (List.replicate (2 ^ 20 + 1)
      (padBlock [asciiEntry 5 0x60] (512 - (blockContent [asciiEntry 5 0x60]).length))).flatten := by
    unfold overCapData directoryData overCapBlocks
    rw [List.flatMap_def, List.map_replicate]
    exact List.append_nil _
  rw [hblocks, length_flatten_of_eq, List.length_replicate]
  intro block hblock
  rw [List.eq_of_mem_replicate hblock, padBlock, List.length_append, List.length_replicate,
    blockContent_ascii]

theorem overCapData_lt : overCapData.length < 2 ^ 32 := by
  rw [overCapData_length]
  decide

/-- A directory of more than 512 MiB is written in blocks as any other, and not listed. -/
theorem readDir_overCap :
    mount (dirSource overCapData overCapData_lt) = .ok (dirMount overCapData overCapData_lt) ∧
      readInode (dirMount overCapData overCapData_lt).vol 4 = .ok (dirRoot overCapData.length) ∧
      inodeData emptyFrames (dirMount overCapData overCapData_lt).vol (dirRoot overCapData.length) 0
          (List.replicate overCapData.length 0) =
        .ok (overCapData.length,
          directoryData (dirMount overCapData overCapData_lt).vol.blockSize overCapBlocks []) ∧
      (∀ entries ∈ overCapBlocks, (blockContent entries).length ≤
        (dirMount overCapData overCapData_lt).vol.blockSize) ∧
      (exec (readDir emptyFrames 4) (dirMount overCapData overCapData_lt)).1 =
        .error (.err (.fileTooLarge overCapData.length maxBootFileBytes)) := by
  have hmount := mount_dirSource overCapData_lt
  have hpos : 0 < overCapData.length := by
    rw [overCapData_length]
    decide
  have hover : maxBootFileBytes < overCapData.length := by
    rw [overCapData_length]
    decide
  refine ⟨hmount, readInode_dirSource overCapData_lt,
    inodeData_dirSource emptyFrames overCapData_lt hpos, ?_,
    readDir_capped (mount_holds hmount) (readInode_dirSource overCapData_lt) rfl hover⟩
  intro entries hentries
  rw [List.eq_of_mem_replicate hentries, blockContent_ascii]
  exact (by decide : 13 ≤ 2 ^ 9)

end Lamfold.Erofs
