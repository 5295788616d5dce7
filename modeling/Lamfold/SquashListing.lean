import Lamfold.SquashOffsets
import Mathlib.Data.Nat.Bitwise

/-!
SquashFS directory listings, written and read back. Metadata blocks lie back to back,
stored as they are or compressed, and are read as one stream; a listing in it has
headers, each with the entries whose inodes lie in one block.
-/
namespace Lamfold.SquashFs

open Effects Bytes Utf8

variable {ρ : Type}

/-- The bytes that a metadata block is stored in: a size, with a flag when what follows
is not compressed. -/
inductive MetaStored (codecs : Codecs ρ) (codec : Codec) : List UInt8 → List UInt8 → Prop
  | plain {data : List UInt8} (hlen : data.length < 2 ^ 15) :
      MetaStored codecs codec data (leBytes 2 (2 ^ 15 + data.length) ++ data)
  | packed {data raw : List UInt8} (hlen : raw.length < 2 ^ 15)
      (hdecode : decode codecs codec raw metaMax = .ok data) :
      MetaStored codecs codec data (leBytes 2 raw.length ++ raw)

/-- The metadata blocks from `at_` on, back to back. -/
inductive MetaRun (codecs : Codecs ρ) (vol : Volume) : ℕ → List (List UInt8) → Prop
  | nil {at_ : ℕ} : MetaRun codecs vol at_ []
  | cons {at_ : ℕ} {data bytes : List UInt8} {blocks : List (List UInt8)}
      (hslice : slice vol.src.content at_ bytes.length = some bytes)
      (hstored : MetaStored codecs vol.codec data bytes)
      (hrest : MetaRun codecs vol (at_ + bytes.length) blocks) :
      MetaRun codecs vol at_ (data :: blocks)

theorem plain_bits {n : ℕ} (h : n < 2 ^ 15) :
    (2 ^ 15 + n) &&& 0x7FFF = n ∧ (2 ^ 15 + n) &&& 0x8000 ≠ 0 := by
  have hflag : (0x8000 : ℕ) = 2 ^ 15 := rfl
  constructor
  · rw [Nat.and_two_pow_sub_one_eq_mod _ 15, Nat.add_mod_left, Nat.mod_eq_of_lt h]
  · rw [hflag, Nat.and_two_pow, Nat.testBit_two_pow_add_eq, Nat.testBit_lt_two_pow h]
    decide

theorem packed_bits {n : ℕ} (h : n < 2 ^ 15) : n &&& 0x7FFF = n ∧ n &&& 0x8000 = 0 := by
  have hflag : (0x8000 : ℕ) = 2 ^ 15 := rfl
  constructor
  · rw [Nat.and_two_pow_sub_one_eq_mod _ 15, Nat.mod_eq_of_lt h]
  · rw [hflag, Nat.and_two_pow, Nat.testBit_lt_two_pow h]
    rfl

section Runs

variable {codecs : Codecs ρ} {vol : Volume}

/-- A size and the bytes it counts, read from the source. -/
theorem readMetaBlock_of_header {at_ h : ℕ} {raw : List UInt8} (hh : h < 2 ^ 16)
    (hlen : h &&& 0x7FFF = raw.length)
    (hslice : slice vol.src.content at_ (leBytes 2 h ++ raw).length = some (leBytes 2 h ++ raw)) :
    readMetaBlock codecs vol at_ = (do
      let data ← unpack codecs vol (h &&& 0x8000 ≠ 0) raw metaMax
      return (data, at_ + (leBytes 2 h ++ raw).length)) := by
  have hin := (slice_eq_some.mp hslice).1
  have hlt := vol.src.length_lt
  obtain ⟨hhdr, hraw⟩ := slice_parts hslice
  rw [leBytes_length] at hhdr hraw
  rw [List.length_append, leBytes_length] at hin ⊢
  have hstart : u64 (at_ + 2) = .ok (at_ + 2) := fits_eq_ok.mpr ⟨by omega, rfl⟩
  have hnext : u64 (at_ + 2 + raw.length) = .ok (at_ + (2 + raw.length)) :=
    fits_eq_ok.mpr ⟨by omega, Nat.add_assoc ..⟩
  unfold readMetaBlock
  rw [Source.readAt_eq_ok.mpr hhdr, ok_bind, leNat_leBytes hh, hstart, lift_ok_bind, hlen,
    Source.readAt_eq_ok.mpr hraw, ok_bind, hnext]
  rfl

theorem readMetaBlock_stored {at_ : ℕ} {data bytes : List UInt8}
    (hstored : MetaStored codecs vol.codec data bytes)
    (hslice : slice vol.src.content at_ bytes.length = some bytes) :
    readMetaBlock codecs vol at_ = .ok (data, at_ + bytes.length) := by
  cases hstored with
  | plain hlen =>
    obtain ⟨hlow, hflag⟩ := plain_bits hlen
    rw [readMetaBlock_of_header (by omega) hlow hslice, unpack, if_pos hflag]
    rfl
  | packed hlen hdecode =>
    obtain ⟨hlow, hflag⟩ := packed_bits hlen
    rw [readMetaBlock_of_header (by omega) hlow hslice, unpack, if_neg (not_not.mpr hflag), hdecode]
    rfl

/-- Copying from one list what there is of it, before the rest comes from another. -/
theorem copy_step {out xs ys : List UInt8} {length k : ℕ}
    (hk : k = min (length - out.length) xs.length)
    (hout : out.length ≤ length) (hroom : length - out.length ≤ (xs ++ ys).length) :
    (out ++ xs.take k).length ≤ length ∧
      length - (out ++ xs.take k).length ≤ (xs.drop k ++ ys).length ∧
      out ++ xs.take k ++ (xs.drop k ++ ys).take (length - (out ++ xs.take k).length) =
        out ++ (xs ++ ys).take (length - out.length) := by
  have hlength : (out ++ xs.take k).length = out.length + k := by
    rw [List.length_append, List.length_take]
    omega
  rw [hlength]
  refine ⟨by omega, ?_, ?_⟩
  · rw [List.length_append, List.length_drop]
    rw [List.length_append] at hroom
    omega
  · have hsplit : length - out.length = k + (length - (out.length + k)) := by omega
    have hle : k ≤ xs.length := by omega
    conv_rhs => rw [hsplit, List.take_add]
    rw [List.take_append_of_le_length hle, List.drop_append_of_le_length hle, List.append_assoc]

/-- In a run of blocks, the loop appends what follows. -/
theorem readMetaFrom_run {length next pos : ℕ} {block out : List UInt8} {blocks : List (List UInt8)}
    (hrun : MetaRun codecs vol next blocks) (hne : ∀ b ∈ blocks, b ≠ [])
    (hroom : length - out.length ≤ (block.drop pos ++ blocks.flatten).length)
    (hout : out.length ≤ length) :
    readMetaFrom codecs vol length block next pos out =
      .ok (out ++ (block.drop pos ++ blocks.flatten).take (length - out.length)) := by
  fun_induction readMetaFrom codecs vol length block next pos out generalizing blocks with
  | case1 block next pos out hlen hpos ih =>
    rw [List.drop_of_length_le hpos, List.nil_append] at hroom ⊢
    cases hrun with
    | nil =>
      rw [List.flatten_nil, List.length_nil] at hroom
      omega
    | @cons _ data bytes blocks hslice hstored hrest =>
      have hdata := hne data List.mem_cons_self
      rw [List.flatten_cons] at hroom ⊢
      obtain ⟨hout', hroom', hcopy⟩ := copy_step rfl hout hroom
      have hnext := ih data (next + bytes.length) hdata hrest
        (fun b hb => hne b (List.mem_cons_of_mem _ hb)) hroom' hout'
      rw [readMetaBlock_stored hstored hslice, ok_bind]
      dsimp only
      rw [if_neg hdata, hnext, hcopy]
  | case2 block next pos out hlen hpos take =>
    rename_i ih
    have htake : take = min (length - out.length) (block.drop pos).length := by
      rw [List.length_drop]
    obtain ⟨hout', hroom', hcopy⟩ := copy_step htake hout hroom
    rw [List.drop_drop] at hroom' hcopy
    rw [ih hrun hne hroom' hout', hcopy]
  | case3 block next pos out hlen =>
    have hdone : length - out.length = 0 := by omega
    rw [hdone, List.take_zero, List.append_nil]
    rfl

theorem readMetaSpan_run {absBlock offset length : ℕ} {first : List UInt8}
    {more : List (List UInt8)} (hrun : MetaRun codecs vol absBlock (first :: more))
    (hne : ∀ b ∈ more, b ≠ []) (hcap : length ≤ maxBootFileBytes)
    (hroom : length ≤ (first.drop offset ++ more.flatten).length) :
    readMetaSpan codecs vol absBlock offset length =
      .ok ((first.drop offset ++ more.flatten).take length) := by
  have hlen : checkedFullReadLen length = .ok length := checkedFullReadLen_eq_ok.mpr ⟨hcap, rfl⟩
  cases hrun with
  | cons hslice hstored hrest =>
    unfold readMetaSpan
    rw [hlen, lift_ok_bind, readMetaBlock_stored hstored hslice, ok_bind]
    exact readMetaFrom_run hrest hne hroom (Nat.zero_le _)

end Runs

/-- A directory entry, with the bytes of it that are not read: inode number and type. -/
structure Entry where
  offset : ℕ
  offset_lt : offset < 2 ^ 16
  unread : List UInt8
  unread_len : unread.length = 4
  name : Str
  name_ne : name ≠ []
  name_le : name.length ≤ 2 ^ 16
  name_utf8 : isUtf8 name = true

namespace Entry

def encode (e : Entry) : List UInt8 :=
  leBytes 2 e.offset ++ e.unread ++ leBytes 2 (e.name.length - 1) ++ e.name

theorem encode_length (e : Entry) : e.encode.length = 8 + e.name.length := by
  simp only [encode, List.length_append, leBytes_length, e.unread_len]

end Entry

/-- A header and its entries, the inodes of which lie in one block; its inode number is
not read. -/
structure Group where
  start : ℕ
  start_lt : start < 2 ^ 32
  unread : List UInt8
  unread_len : unread.length = 4
  entries : List Entry
  entries_ne : entries ≠ []
  entries_le : entries.length ≤ 256

namespace Group

def header (g : Group) : List UInt8 :=
  leBytes 4 (g.entries.length - 1) ++ leBytes 4 g.start ++ g.unread

def encode (g : Group) : List UInt8 := g.header ++ g.entries.flatMap Entry.encode

/-- Name and inode reference of each entry. -/
def listing (g : Group) : List (Str × ℕ) :=
  g.entries.map fun e => (e.name, g.start <<< 16 ||| e.offset)

theorem header_length (g : Group) : g.header.length = 12 := by
  simp only [header, List.length_append, leBytes_length, g.unread_len]

end Group

/-- The listing of a directory. -/
def encodeListing (groups : List Group) : List UInt8 := groups.flatMap Group.encode

/-- An entry is read, and the ones after it from its end on. -/
theorem listingFrom_entry (e : Entry) (pre post : List UInt8) (start left : ℕ) :
    listingFrom (pre ++ e.encode ++ post) start (left + 1) pre.length = (do
      let rest ← listingFrom (pre ++ e.encode ++ post) start left (pre ++ e.encode).length
      return (e.name, start <<< 16 ||| e.offset) :: rest) := by
  have hpos := List.length_pos_iff.mpr e.name_ne
  have hle := e.name_le
  have hlen := e.encode_length
  have hentry : 0 < left + 1 ∧ pre.length + 8 ≤ (pre ++ e.encode ++ post).length := by
    rw [List.length_append, List.length_append]
    omega
  have hoffset : leU16 (pre ++ e.encode ++ post) pre.length = .ok e.offset := by
    refine @leAt_of_append 2 _ _ _ _ pre
      (e.unread ++ leBytes 2 (e.name.length - 1) ++ e.name ++ post) ?_ rfl e.offset_lt
    simp only [Entry.encode, List.append_assoc]
  have hsize : leU16 (pre ++ e.encode ++ post) (pre.length + 6) = .ok (e.name.length - 1) := by
    refine @leAt_of_append 2 _ _ _ _ (pre ++ leBytes 2 e.offset ++ e.unread) (e.name ++ post) ?_ ?_
      (by omega)
    · simp only [Entry.encode, List.append_assoc]
    · simp only [List.length_append, leBytes_length, e.unread_len]
  have hname : slice (pre ++ e.encode ++ post) (pre.length + 8) (e.name.length - 1 + 1) =
      some e.name := by
    refine @slice_of_append _ _ (pre ++ leBytes 2 e.offset ++ e.unread ++
      leBytes 2 (e.name.length - 1)) e.name post _ _ ?_ ?_ (by omega)
    · simp only [Entry.encode, List.append_assoc]
    · simp only [List.length_append, leBytes_length, e.unread_len]
  have hnext : pre.length + (8 + (e.name.length - 1 + 1)) = (pre ++ e.encode).length := by
    rw [List.length_append]
    omega
  rw [listingFrom, if_pos hentry, hoffset, ok_bind, hsize, ok_bind, hname, okOr, ok_bind, hnext,
    Nat.add_sub_cancel, fromUtf8Lossy_of_utf8 e.name_utf8]

/-- The entries of a header, before what follows them. -/
theorem listingFrom_entries {entries : List Entry} {pre post : List UInt8} {start : ℕ}
    {result : List (Str × ℕ)}
    (h : listingFrom (pre ++ entries.flatMap Entry.encode ++ post) start 0
      (pre ++ entries.flatMap Entry.encode).length = .ok result) :
    listingFrom (pre ++ entries.flatMap Entry.encode ++ post) start entries.length pre.length =
      .ok (entries.map (fun e => (e.name, start <<< 16 ||| e.offset)) ++ result) := by
  induction entries generalizing pre with
  | nil =>
    rw [List.flatMap_nil, List.append_nil] at h ⊢
    exact h
  | cons e entries ih =>
    have hrest := @ih (pre ++ e.encode)
    have hentry := listingFrom_entry e pre (entries.flatMap Entry.encode ++ post) start entries.length
    rw [List.flatMap_cons] at h ⊢
    simp only [List.append_assoc] at h hrest hentry ⊢
    rw [List.length_cons, hentry, hrest h, ok_bind]
    rfl

/-- A header, its entries, and what follows them. -/
theorem listingFrom_group {g : Group} {pre post : List UInt8} {start : ℕ}
    {result : List (Str × ℕ)}
    (h : ∀ start, listingFrom (pre ++ g.encode ++ post) start 0 (pre ++ g.encode).length =
      .ok result) :
    listingFrom (pre ++ g.encode ++ post) start 0 pre.length = .ok (g.listing ++ result) := by
  have hpos := List.length_pos_iff.mpr g.entries_ne
  have hle := g.entries_le
  have hlen := g.header_length
  have hsplit : pre ++ g.encode ++ post =
      (pre ++ g.header) ++ g.entries.flatMap Entry.encode ++ post := by
    simp only [Group.encode, List.append_assoc]
  have hheader : pre.length + 12 ≤ (pre ++ g.encode ++ post).length := by
    rw [hsplit]
    simp only [List.length_append]
    omega
  have hcount : leU32 (pre ++ g.encode ++ post) pre.length = .ok (g.entries.length - 1) := by
    refine @leAt_of_append 4 _ _ _ _ pre
      (leBytes 4 g.start ++ g.unread ++ g.entries.flatMap Entry.encode ++ post) ?_ rfl (by omega)
    simp only [hsplit, Group.header, List.append_assoc]
  have hstart : leU32 (pre ++ g.encode ++ post) (pre.length + 4) = .ok g.start := by
    refine @leAt_of_append 4 _ _ _ _ (pre ++ leBytes 4 (g.entries.length - 1))
      (g.unread ++ g.entries.flatMap Entry.encode ++ post) ?_ ?_ g.start_lt
    · simp only [hsplit, Group.header, List.append_assoc]
    · rw [List.length_append, leBytes_length]
  have hcount' : g.entries.length - 1 + 1 = g.entries.length := by omega
  have hentries := h g.start
  have hend : (pre ++ g.encode).length =
      ((pre ++ g.header) ++ g.entries.flatMap Entry.encode).length := by
    simp only [Group.encode, List.append_assoc]
  rw [hsplit, hend] at hentries
  have hnext := listingFrom_entries hentries
  rw [← hsplit, List.length_append, hlen] at hnext
  rw [listingFrom, if_neg (fun hleft => absurd hleft.1 (lt_irrefl 0)), if_pos hheader, hcount, ok_bind,
    hstart, ok_bind, hcount']
  exact hnext

theorem listingFrom_encode {groups : List Group} {pre : List UInt8} {start : ℕ} :
    listingFrom (pre ++ encodeListing groups) start 0 pre.length =
      .ok (groups.flatMap Group.listing) := by
  induction groups generalizing pre start with
  | nil =>
    have hend : ¬pre.length + 12 ≤ (pre ++ encodeListing []).length := by
      simp [encodeListing]
    rw [listingFrom, if_neg (fun hleft => absurd hleft.1 (lt_irrefl 0)), if_neg hend]
    rfl
  | cons g groups ih =>
    have hsplit : pre ++ encodeListing (g :: groups) = pre ++ g.encode ++ encodeListing groups := by
      simp only [encodeListing, List.flatMap_cons, List.append_assoc]
    rw [hsplit, List.flatMap_cons]
    exact listingFrom_group fun start => ih

/-- A listing of more than 512 MiB is refused before anything is read. -/
theorem dirEntries_capped (codecs : Codecs ρ) (vol : Volume) (absBlock offset length : ℕ)
    (hover : maxBootFileBytes < length) :
    dirEntries codecs vol absBlock offset (length + 3) =
      fail (.fileTooLarge length maxBootFileBytes) := by
  have hlen : checkedFullReadLen length = fail (.fileTooLarge length maxBootFileBytes) :=
    checkedLen_of_lt hover
  unfold dirEntries readMetaSpan
  rw [Nat.add_sub_cancel, hlen]
  rfl

/-- A listing of at most 512 MiB is read back, wherever it starts in the first of its
metadata blocks and however many it spans: name and inode reference of each entry, in
order. A longer one is refused. -/
theorem dirEntries_encode (codecs : Codecs ρ) (vol : Volume) :
    (∀ (groups : List Group) (absBlock offset : ℕ) (first post : List UInt8)
      (more : List (List UInt8)), MetaRun codecs vol absBlock (first :: more) →
      (∀ b ∈ more, b ≠ []) →
      first.drop offset ++ more.flatten = encodeListing groups ++ post →
      (encodeListing groups).length ≤ maxBootFileBytes →
      dirEntries codecs vol absBlock offset ((encodeListing groups).length + 3) =
        .ok (groups.flatMap Group.listing)) ∧
      ∀ (absBlock offset length : ℕ), maxBootFileBytes < length →
        dirEntries codecs vol absBlock offset (length + 3) =
          fail (.fileTooLarge length maxBootFileBytes) := by
  refine ⟨?_, dirEntries_capped codecs vol⟩
  intro groups absBlock offset first post more hrun hmore hlisting hcap
  have hroom : (encodeListing groups).length ≤ (first.drop offset ++ more.flatten).length := by
    rw [hlisting, List.length_append]
    exact Nat.le_add_right _ _
  have hspan := readMetaSpan_run hrun hmore hcap hroom
  rw [hlisting, List.take_left] at hspan
  unfold dirEntries
  rw [Nat.add_sub_cancel, hspan, ok_bind]
  exact @listingFrom_encode groups [] 0

/-- The block that a listing would start in is read even when the listing is empty. -/
theorem dirEntries_empty_iff (codecs : Codecs ρ) (vol : Volume) (absBlock offset : ℕ) :
    dirEntries codecs vol absBlock offset 3 = .ok [] ↔
      ∃ block next, readMetaBlock codecs vol absBlock = .ok (block, next) := by
  have hlen : checkedFullReadLen 0 = .ok 0 := checkedFullReadLen_eq_ok.mpr ⟨Nat.zero_le _, rfl⟩
  unfold dirEntries readMetaSpan
  rw [Nat.sub_self, hlen, lift_ok_bind]
  cases hread : readMetaBlock codecs vol absBlock with
  | error e =>
    refine iff_of_false ?_ ?_
    · intro h
      cases h
    · rintro ⟨block, next, h⟩
      cases h
  | ok found =>
    obtain ⟨block, next⟩ := found
    refine iff_of_true ?_ ⟨block, next, rfl⟩
    rw [ok_bind]
    dsimp only
    rw [readMetaFrom, if_neg (Nat.not_lt_zero _), pure_bind, lift_self, listingFrom,
      if_neg (fun hleft => absurd hleft.1 (lt_irrefl 0)), if_neg (by simp)]

def storedBlock (data : List UInt8) : List UInt8 := leBytes 2 (2 ^ 15 + data.length) ++ data

theorem storedBlock_length (data : List UInt8) : (storedBlock data).length = 2 + data.length := by
  rw [storedBlock, List.length_append, leBytes_length]

theorem metaRun_stored {codecs : Codecs ρ} {vol : Volume} {blocks : List (List UInt8)}
    {pre : List UInt8} (hlen : ∀ data ∈ blocks, data.length < 2 ^ 15)
    (hcontent : vol.src.content = pre ++ blocks.flatMap storedBlock) :
    MetaRun codecs vol pre.length blocks := by
  induction blocks generalizing pre with
  | nil => exact .nil
  | cons data blocks ih =>
    have hsplit : vol.src.content = pre ++ storedBlock data ++ blocks.flatMap storedBlock := by
      rw [hcontent, List.flatMap_cons, List.append_assoc]
    refine .cons (slice_of_append hsplit rfl rfl) (.plain (hlen data List.mem_cons_self)) ?_
    have hrest := @ih (pre ++ storedBlock data)
      (fun data hdata => hlen data (List.mem_cons_of_mem _ hdata)) hsplit
    rwa [List.length_append] at hrest

theorem storedRange : 0 < 131072 ∧ 131072 ≤ 1 <<< 20 := by decide

/-- A volume of which only metadata is read. -/
def storedVolume (src : Source) : Volume where
  src := src
  codec := .zlib
  blockSize := 131072
  blockSize_range := storedRange
  inodeTableStart := 0
  directoryTableStart := 0
  fragmentTableStart := 0

def storedSource (blocks : List (List UInt8)) (h : (blocks.flatMap storedBlock).length < 2 ^ 64) :
    Source where
  content := blocks.flatMap storedBlock
  length_lt := h

theorem metaRun_storedSource (codecs : Codecs ρ) {blocks : List (List UInt8)}
    (h : (blocks.flatMap storedBlock).length < 2 ^ 64)
    (hlen : ∀ data ∈ blocks, data.length < 2 ^ 15) :
    MetaRun codecs (storedVolume (storedSource blocks h)) 0 blocks :=
  @metaRun_stored _ codecs (storedVolume (storedSource blocks h)) blocks [] hlen
    (List.nil_append _).symm

theorem letter_offset_lt : 0x1234 < 2 ^ 16 := by decide

theorem letter_name_le : ([0x61] : Str).length ≤ 2 ^ 16 := by decide

theorem letter_name_utf8 : isUtf8 [0x61] = true := by decide

/-- An entry whose name is `a`. -/
def letterEntry : Entry where
  offset := 0x1234
  offset_lt := letter_offset_lt
  unread := [0, 0, 2, 0]
  unread_len := rfl
  name := [0x61]
  name_ne := List.cons_ne_nil _ _
  name_le := letter_name_le
  name_utf8 := letter_name_utf8

theorem group_start_lt : 5 < 2 ^ 32 := by decide

/-- A header with one entry and as many more as a header may have. -/
def letterGroup (more : Fin 256) : Group where
  start := 5
  start_lt := group_start_lt
  unread := [0, 0, 0, 0]
  unread_len := rfl
  entries := letterEntry :: List.replicate more.val letterEntry
  entries_ne := List.cons_ne_nil _ _
  entries_le := Nat.succ_le_succ (List.length_replicate.trans_le (Nat.lt_succ_iff.mp more.isLt))

theorem letterGroup_length (more : Fin 256) :
    (letterGroup more).encode.length = 12 + (more.val + 1) * 9 := by
  have hentry : letterEntry.encode.length = 9 := letterEntry.encode_length
  have hentries : ((letterGroup more).entries.flatMap Entry.encode).length = (more.val + 1) * 9 := by
    rw [List.flatMap_def, length_flatten_of_eq (n := 9)]
    · simp [letterGroup]
    · intro bytes hbytes
      obtain ⟨e, he, rfl⟩ := List.mem_map.mp hbytes
      rcases List.mem_cons.mp he with rfl | he
      · exact hentry
      · rw [List.eq_of_mem_replicate he, hentry]
  rw [Group.encode, List.length_append, Group.header_length, hentries]

/-- Two entries: a part of the header lies in a second metadata block. -/
def splitListing : List UInt8 := encodeListing [letterGroup 1]

def splitBlocks : List (List UInt8) := [[9, 9] ++ splitListing.take 5, splitListing.drop 5 ++ [7]]

theorem splitBlocks_lt : (splitBlocks.flatMap storedBlock).length < 2 ^ 64 := by decide +kernel

def splitSource : Source := storedSource splitBlocks splitBlocks_lt

theorem dirEntries_encode_split :
    dirEntries noStreams (storedVolume splitSource) 0 2 33 =
      .ok [([0x61], 0x51234), ([0x61], 0x51234)] := by
  have hrun : MetaRun noStreams (storedVolume splitSource) 0 splitBlocks :=
    metaRun_storedSource noStreams splitBlocks_lt (by decide +kernel)
  exact (dirEntries_encode noStreams (storedVolume splitSource)).1 [letterGroup 1] 0 2 _ [7] _ hrun
    (by decide +kernel) (by decide +kernel) (by decide +kernel)

/-- As many full groups, each in a metadata block of its own, as are over 512 MiB. -/
def overCapGroups : List Group := List.replicate (2 ^ 18) (letterGroup 255)

theorem fullGroup_length : (letterGroup 255).encode.length = 2316 := letterGroup_length 255

theorem overCapGroups_length : (encodeListing overCapGroups).length = 2 ^ 18 * 2316 := by
  rw [encodeListing, overCapGroups, List.flatMap_def, List.map_replicate, length_flatten_of_eq,
    List.length_replicate]
  intro bytes hbytes
  rw [List.eq_of_mem_replicate hbytes, fullGroup_length]

def overCapBlocks : List (List UInt8) := List.replicate (2 ^ 18 - 1) (letterGroup 255).encode

theorem overCap_count : 2 ^ 18 - 1 + 1 = 2 ^ 18 := by decide

theorem overCapBlocks_mem {data : List UInt8} (h : data ∈ (letterGroup 255).encode :: overCapBlocks) :
    data = (letterGroup 255).encode := by
  rcases List.mem_cons.mp h with rfl | h
  · rfl
  · exact List.eq_of_mem_replicate h

theorem overCap_length_lt :
    (((letterGroup 255).encode :: overCapBlocks).flatMap storedBlock).length < 2 ^ 64 := by
  have hlen : (((letterGroup 255).encode :: overCapBlocks).flatMap storedBlock).length =
      2 ^ 18 * 2318 := by
    rw [List.flatMap_def, length_flatten_of_eq (n := 2318)]
    · rw [List.length_map, List.length_cons, overCapBlocks, List.length_replicate, overCap_count]
    · intro bytes hbytes
      obtain ⟨data, hdata, rfl⟩ := List.mem_map.mp hbytes
      rw [overCapBlocks_mem hdata, storedBlock_length, fullGroup_length]
  rw [hlen]
  decide

def overCapSource : Source :=
  storedSource ((letterGroup 255).encode :: overCapBlocks) overCap_length_lt

/-- A listing of more than 512 MiB is written as any other, and refused. -/
theorem dirEntries_overCap :
    MetaRun noStreams (storedVolume overCapSource) 0 ((letterGroup 255).encode :: overCapBlocks) ∧
      (∀ b ∈ overCapBlocks, b ≠ []) ∧
      (letterGroup 255).encode.drop 0 ++ overCapBlocks.flatten = encodeListing overCapGroups ++ [] ∧
      dirEntries noStreams (storedVolume overCapSource) 0 0 ((encodeListing overCapGroups).length + 3) =
        .error (.err (.fileTooLarge (encodeListing overCapGroups).length maxBootFileBytes)) := by
  have hne : (letterGroup 255).encode ≠ [] := by
    intro h
    have hlen := fullGroup_length
    rw [h] at hlen
    cases hlen
  have hgroups : encodeListing overCapGroups =
      (List.replicate (2 ^ 18 - 1 + 1) (letterGroup 255).encode).flatten := by
    rw [encodeListing, overCapGroups, List.flatMap_def, List.map_replicate, overCap_count]
  refine ⟨metaRun_storedSource noStreams overCap_length_lt ?_, ?_, ?_, ?_⟩
  · intro data hdata
    rw [overCapBlocks_mem hdata, fullGroup_length]
    decide
  · intro b hb
    rwa [List.eq_of_mem_replicate hb]
  · rw [hgroups, List.replicate_succ, List.flatten_cons, List.append_nil, List.drop_zero,
      overCapBlocks]
  · apply dirEntries_capped
    rw [overCapGroups_length]
    decide

end Lamfold.SquashFs
