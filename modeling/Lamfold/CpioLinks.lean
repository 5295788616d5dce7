import Lamfold.CpioSound

/-!
Hard links. The regular files of one archive with more than one link and one identity
share the data of the last of them that has any; every other record has its own.
-/
namespace Lamfold.Cpio

open Effects Streams

/-- A record that may be one link of several to a file. -/
def IsLink (r : Record) : Prop := fileKind r.mode = .regular ∧ r.nlink > 1

instance (r : Record) : Decidable (IsLink r) := inferInstanceAs (Decidable (_ ∧ _))

/-- The bytes that a record itself stores. -/
def Found.ownData (a : Found) (r : Record) : List UInt8 := (a.bytes.drop r.data.1).take r.data.2

/-- What the links to a file store, in the order of their records. -/
def Found.linkData (a : Found) (inode : Inode) : List (List UInt8) :=
  (a.records.filter fun r => IsLink r ∧ r.inode = inode).map a.ownData

/-- The data of a file with links is the last of these that is not empty. -/
def Found.fileData (a : Found) (r : Record) : List UInt8 :=
  if IsLink r then ((a.linkData r.inode).filter (· ≠ [])).getLast?.getD [] else a.ownData r

theorem isLink_iff {r : Record} : IsLink r ↔ r.mode &&& sIfmt = sIfreg ∧ r.nlink > 1 := by
  have hkind : fileKind r.mode = .regular ↔ r.mode &&& sIfmt = sIfreg := by
    unfold fileKind
    constructor
    · intro h
      split_ifs at h with _ hreg
      exact hreg
    · intro h
      rw [h, if_neg (by decide), if_pos rfl]
  unfold IsLink
  rw [hkind]

/-- The map holds the data of the last link that has any. -/
theorem lookup_linked (rs : List Record) (inode : Inode) :
    (linked rs).lookup inode =
      (rs.filter fun r => (IsLink r ∧ r.inode = inode) ∧ r.data.2 > 0).getLast?.map Record.data := by
  induction rs using List.reverseRecOn with
  | nil => rfl
  | append_singleton rs r ih =>
    have hstep : linked (rs ++ [r]) =
        if r.mode &&& sIfmt = sIfreg ∧ r.nlink > 1 ∧ r.data.2 > 0 then (r.inode, r.data) :: linked rs
        else linked rs := by
      unfold linked
      rw [List.foldl_append, List.foldl_cons, List.foldl_nil]
    rw [hstep, List.filter_append, List.getLast?_append, List.filter_singleton]
    by_cases hlink : r.mode &&& sIfmt = sIfreg ∧ r.nlink > 1 ∧ r.data.2 > 0
    · have hr : IsLink r := isLink_iff.mpr ⟨hlink.1, hlink.2.1⟩
      rw [if_pos hlink, List.lookup_cons]
      by_cases hinode : r.inode = inode
      · simp [hr, hinode, hlink.2.2]
      · have hne : (inode == r.inode) = false := by simpa using fun heq => hinode heq.symm
        simp [hne, hinode, ih]
    · have hno : ¬((IsLink r ∧ r.inode = inode) ∧ r.data.2 > 0) := fun h =>
        hlink ⟨(isLink_iff.mp h.1.1).1, (isLink_iff.mp h.1.1).2, h.2⟩
      rw [if_neg hlink, ih]
      simp [hno]

section Data

variable {a : Found}

/-- Stored data is empty exactly when its recorded size is zero. -/
theorem ownData_ne_nil {r : Record} (hle : r.data.1 + r.data.2 ≤ a.bytes.length) :
    a.ownData r ≠ [] ↔ r.data.2 > 0 := by
  unfold Found.ownData
  rw [← List.length_pos_iff, List.length_take, List.length_drop]
  omega

/-- The last stored data of the links that is not empty is the data of the last link that
has a size. -/
theorem getLast_linkData (hdata : ∀ r ∈ a.records, r.data.1 + r.data.2 ≤ a.bytes.length)
    (inode : Inode) : ((a.linkData inode).filter (· ≠ [])).getLast? =
      (a.records.filter fun r => (IsLink r ∧ r.inode = inode) ∧ r.data.2 > 0).getLast?.map
        a.ownData := by
  unfold Found.linkData
  rw [List.filter_map, List.getLast?_map, List.filter_filter]
  congr 2
  apply List.filter_congr
  intro r hr
  have hne : (a.ownData r ≠ []) = (r.data.2 > 0) := propext (ownData_ne_nil (hdata r hr))
  simp only [Function.comp_apply, hne]
  rw [Bool.and_comm, ← Bool.decide_and]

/-- What is read for a record is the data of its file. -/
theorem data_eq_fileData (hdata : ∀ r ∈ a.records, r.data.1 + r.data.2 ≤ a.bytes.length)
    {r : Record} (hr : r ∈ a.records) : a.data r = a.fileData r := by
  by_cases hlink : IsLink r
  · have hrange : dataRange (linked a.records) r = ((linked a.records).lookup r.inode).getD r.data :=
      if_pos hlink
    unfold Found.data Found.fileData
    rw [hrange, if_pos hlink, getLast_linkData hdata, lookup_linked]
    cases hlast : (a.records.filter fun s =>
        (IsLink s ∧ s.inode = r.inode) ∧ s.data.2 > 0).getLast? with
    | some last => rfl
    | none =>
      -- no link has data, and this one is a link
      have hnil := List.getLast?_eq_none_iff.mp hlast
      have hsize : ¬r.data.2 > 0 := by
        intro hsize
        have hmem : r ∈ a.records.filter fun s => (IsLink s ∧ s.inode = r.inode) ∧ s.data.2 > 0 :=
          List.mem_filter.mpr ⟨hr, decide_eq_true ⟨⟨hlink, rfl⟩, hsize⟩⟩
        rw [hnil] at hmem
        cases hmem
      exact not_not.mp fun hne => hsize ((ownData_ne_nil (hdata r hr)).mp hne)
  · have hrange : dataRange (linked a.records) r = r.data := if_neg hlink
    unfold Found.data Found.fileData
    rw [hrange, if_neg hlink]
    rfl

end Data

/-- In an opened input each record is read as the data of its file in its own archive,
and each node as the last record at its path. -/
theorem links_share_data (readers : Readers) (src : Source) (c : Cpio)
    (hmagic : newcMagic.isPrefixOf src.content ∨ crcMagic.isPrefixOf src.content)
    (hmount : mount readers src = .ok c) :
    ∃ archives ms budget,
      Unpacks readers.dec 0 src.content 0 [] maxBootFileBytes archives ms budget ∧
      c.buffers = src.content :: ms ∧
      insertAll [Node.dir 0o755] (archives.flatMap Found.files) = .ok c.nodes ∧
      (∀ a ∈ archives, ∀ r ∈ a.records,
        c.bytes (a.entry r).data = .ok (a.fileData r) ∧ a.data r = a.fileData r) ∧
      ∀ (id : ℕ) n, c.nodes[id]? = some n → n.kind ≠ .directory → ReadsRecord c archives id n := by
  obtain ⟨-, archives, ms, budget, hunpacks, hbuffers, hfold⟩ := (mount_eq_ok hmagic).mp hmount
  obtain ⟨label, h⟩ := represents_of_mount hmagic hmount hunpacks
  have hstored := stored_of_unpacks hunpacks hbuffers
  refine ⟨archives, ms, budget, hunpacks, hbuffers, hfold, ?_, ?_⟩
  · intro a ha r hr
    obtain ⟨hbytes, -, hle⟩ := hstored a ha r hr
    have hdata : a.data r = a.fileData r :=
      data_eq_fileData (fun s hs => (hstored a ha s hs).2.1) hr
    rw [← hdata]
    exact ⟨bytes_eq hbytes hle, rfl⟩
  · intro id n hn hkind
    refine readsRecord_of_node h ?_ hn hkind
    intro a ha r hr
    obtain ⟨hbytes, -, hle⟩ := hstored a ha r hr
    exact ⟨hbytes, hle⟩

/-- A record of a regular file with two links, as a writer lays it out. -/
def linkRecord (name : Str) (data : List UInt8) : List UInt8 :=
  newcMagic ++ hex8 1 ++ hex8 0o100644 ++ hex8 0 ++ hex8 0 ++ hex8 2 ++ hex8 0 ++
    hex8 data.length ++ (List.replicate 4 (hex8 0)).flatten ++ hex8 (name.length + 1) ++ hex8 0 ++
    name ++ List.replicate (align4 (newcHeader + name.length + 1) - (newcHeader + name.length)) 0 ++
    data ++ List.replicate (align4 data.length - data.length) 0

/-- The record that `linkRecord` puts at `start`. -/
def linkRecordAt (start size : ℕ) (name : Str) : Record :=
  ⟨(start + newcHeader, name.length), 0o100644, ⟨0, 0, 1⟩, 2,
    (align4 (start + newcHeader + name.length + 1), size)⟩

/-- An archive of a file with the links `a` and `b`, its data with `b`. -/
def twoLinks : Source :=
  ⟨linkRecord [0x61] [] ++ linkRecord [0x62] [0x78] ++ emptyRecord 0 trailer, by decide +kernel⟩

def twoLinksFound : Found :=
  ⟨0, twoLinks.content, [linkRecordAt 0 0 [0x61], linkRecordAt 112 1 [0x62]]⟩

example : twoLinksFound.records.map twoLinksFound.fileData = [[0x78], [0x78]] := by decide +kernel

theorem twoLinks_chain : Chain twoLinks.content 0 [twoLinksFound.records] := by
  have hfirst : IsRecord twoLinks.content 0 false (linkRecordAt 0 0 [0x61]) 112 := by
    refine ⟨?_, ?_, ?_, ?_, ?_, ?_, ?_, ?_, ⟨0, ?_, ?_⟩, ?_, ?_, ?_, ?_, ?_, ?_⟩ <;> decide +kernel
  have hsecond : IsRecord twoLinks.content 112 false (linkRecordAt 112 1 [0x62]) 228 := by
    refine ⟨?_, ?_, ?_, ?_, ?_, ?_, ?_, ?_, ⟨0, ?_, ?_⟩, ?_, ?_, ?_, ?_, ?_, ?_⟩ <;> decide +kernel
  have hlast : IsRecord twoLinks.content 228 false (emptyRecordAt 228 0 trailer) 352 := by
    refine ⟨?_, ?_, ?_, ?_, ?_, ?_, ?_, ?_, ⟨0, ?_, ?_⟩, ?_, ?_, ?_, ?_, ?_, ?_⟩ <;> decide +kernel
  refine .archive rfl (.record hfirst (by decide +kernel) (.record hsecond (by decide +kernel)
    (.trailer hlast (by decide +kernel)))) ?_ (.finish (by decide +kernel))
  intro r hr
  rcases List.mem_cons.mp hr with rfl | hr
  · decide +kernel
  · obtain rfl := List.mem_singleton.mp hr
    decide +kernel

theorem links_share_data_twoLinks : ∃ c, mount plainReaders twoLinks = .ok c ∧
    ∃ archives ms budget,
      Unpacks plainReaders.dec 0 twoLinks.content 0 [] maxBootFileBytes archives ms budget ∧
      ∀ a ∈ archives, ∀ r ∈ a.records, c.bytes (a.entry r).data = .ok (a.fileData r) := by
  obtain ⟨nodes, hfold⟩ := exists_insertAll
    (([twoLinksFound.records].map (Found.mk 0 twoLinks.content)).flatMap Found.files)
  have hmagic : newcMagic.isPrefixOf twoLinks.content ∨ crcMagic.isPrefixOf twoLinks.content := by
    decide +kernel
  have hmount : mount plainReaders twoLinks = .ok ⟨[twoLinks.content], nodes⟩ :=
    (mount_eq_ok hmagic).mpr ⟨by decide +kernel, _, [], maxBootFileBytes,
      twoLinks_chain.unpacks 0 [] maxBootFileBytes, rfl, hfold⟩
  obtain ⟨archives, ms, budget, hunpacks, -, -, hdata, -⟩ :=
    links_share_data plainReaders twoLinks _ hmagic hmount
  exact ⟨_, hmount, archives, ms, budget, hunpacks, fun a ha r hr => (hdata a ha r hr).1⟩

end Lamfold.Cpio
