import Lamfold.CpioSound

/-!
The names of records. A name field holds a string and the NULs that pad it; the parser
drops one NUL, so a name has the path of its string, and can end the archive, exactly
when no more than one follows.
-/
namespace Lamfold.Cpio

open Effects Bytes Utf8 PathTree

/-- The name field of a record, the NUL at its end included. -/
def nameField (x : List UInt8) (r : Record) : List UInt8 := (x.drop r.name.1).take (r.name.2 + 1)

/-- What the record puts at its path, when `found` are the hard links of its archive. -/
def entryOf (idx : ℕ) (found : List (Inode × (ℕ × ℕ))) (r : Record) : Entry :=
  ⟨fileKind r.mode, r.mode &&& 0o7777, ⟨idx, (dataRange found r).1, (dataRange found r).2⟩⟩

/-- The record at `start`, with the next one at `next`, is taken as the name `n` says. -/
structure TakesName (x : List UInt8) (start : ℕ) (r : Record) (next : ℕ) (n : Str) : Prop where
  ends_iff : records x start = .ok ([], next) ↔ n = trailer
  listed : n ≠ trailer → ∀ rs stop, records x start = .ok (rs, stop) → ∃ rest, rs = r :: rest
  filed : n ≠ trailer → ∀ idx found nodes,
    insertRecord x idx found nodes r = insert nodes n (entryOf idx found r)

section OneFile

variable {nodes : List Node} {label : ℕ → List Str} {tree : Tree Str Entry}

theorem Represents.label_of_pathTo (h : Represents nodes label tree) {p : List Str} {i : ℕ}
    (hpath : PathTo nodes p i) : label i = p := by
  induction hpath with
  | root => exact h.root
  | child _ hchild ih => rw [(h.label_child hchild).2, ih]

theorem Represents.tree_of_represents {label' : ℕ → List Str} {tree' : Tree Str Entry}
    (h : Represents nodes label tree) (h' : Represents nodes label' tree') {p : List Str}
    (hp : tree p ≠ none) : tree' p ≠ none := by
  obtain ⟨i, hi, rfl⟩ := h.exists_node hp
  have hlabel : label' i = label i := h'.label_of_pathTo (h.pathTo hi)
  rw [← hlabel, h'.entry i _ (List.getElem?_eq_getElem hi)]
  exact Option.some_ne_none _

/-- A file lands at different nodes for different paths. -/
theorem components_of_insert_eq {p q : Str} {e e' : Entry}
    (h : insert [Node.dir 0o755] p e = insert [Node.dir 0o755] q e') :
    Path.components p <+: Path.components q := by
  obtain ⟨nodes, label, hok, hrep⟩ := insertAll_represents represents_root [(p, e)]
  obtain ⟨nodes', label', hok', hrep'⟩ := insertAll_represents represents_root [(q, e')]
  have hsame : insertAll [Node.dir 0o755] [(p, e)] = insertAll [Node.dir 0o755] [(q, e')] := by
    simp only [insertAll, List.foldlM_cons, h]
  obtain rfl : nodes = nodes' := Except.ok.inj (hok.symm.trans (hsame.trans hok'))
  by_cases hnil : Path.components p = []
  · rw [hnil]
    exact List.nil_prefix
  have hmem : (Path.components p, e) ∈ located [(p, e)] := List.mem_singleton.mpr rfl
  have hthere := tree_ne_none hmem (List.prefix_refl _)
  obtain ⟨file, hfile, hle⟩ := exists_file hnil (hrep.tree_of_represents hrep' hthere)
  obtain rfl := List.mem_singleton.mp hfile
  exact hle

end OneFile

section Names

variable {x : List UInt8} {start next k : ℕ} {crc : Bool} {r : Record} {n : Str}

theorem nameField_eq (hrecord : IsRecord x start crc r next) :
    nameField x r = nameBytes x r ++ [0] := by
  unfold nameField nameBytes
  rw [List.take_add_one, List.getElem?_drop, hrecord.name_nul]
  rfl

/-- The parser keeps all NULs of the padding but one. -/
theorem nameBytes_of_field (hrecord : IsRecord x start crc r next) (hk : 1 ≤ k)
    (hfield : nameField x r = n ++ List.replicate k 0) :
    nameBytes x r = n ++ List.replicate (k - 1) 0 := by
  obtain ⟨k, rfl⟩ : ∃ j, k = j + 1 := ⟨k - 1, by omega⟩
  rw [nameField_eq hrecord, List.replicate_succ', ← List.append_assoc] at hfield
  exact List.append_cancel_right hfield

/-- A name with a NUL in it is not filed where a string without one says. -/
theorem not_filed_of_nul (hnul : 0 ∉ n) (hname : 0 ∈ nameBytes x r)
    (hle : r.name.1 + r.name.2 ≤ x.length) :
    ¬∀ idx found nodes, insertRecord x idx found nodes r = insert nodes n (entryOf idx found r) := by
  intro hfiled
  have hone := hfiled 0 [] [Node.dir 0o755]
  obtain ⟨nodes, -, hok, -⟩ := insertAll_represents represents_root [(n, entryOf 0 [] r)]
  have hok : insert [Node.dir 0o755] n (entryOf 0 [] r) = .ok nodes := by
    obtain ⟨mid, hmid, hrest⟩ := bind_eq_ok.mp (List.foldlM_cons.symm.trans hok)
    obtain rfl := Except.ok.inj hrest
    exact hmid
  -- the record is filed at its own name
  rw [hok] at hone
  obtain ⟨bytes, hbytes, hone⟩ := bind_eq_ok.mp hone
  rw [nameBytes_eq hle] at hbytes
  obtain rfl := Except.ok.inj hbytes
  obtain ⟨name, hutf8, hone⟩ := bind_eq_ok.mp hone
  obtain rfl : nameBytes x r = name := by
    have hutf8 := okOr_eq_ok.mp hutf8
    unfold fromUtf8 at hutf8
    split at hutf8
    · exact Option.some.inj hutf8
    · cases hutf8
  have hprefix := components_of_insert_eq (hone.trans hok.symm)
  obtain ⟨comp, hcomp, hzero⟩ := (Path.exists_component_iff (by decide) (by decide)).mpr hname
  exact hnul ((Path.exists_component_iff (by decide) (by decide)).mp
    ⟨comp, hprefix.subset hcomp, hzero⟩)

/-- More padding, and the name is not taken as its string. -/
theorem not_takesName_of_padded (hrecord : IsRecord x start crc r next) (hk : 2 ≤ k)
    (hfield : nameField x r = n ++ List.replicate k 0) (hnul : 0 ∉ n) :
    ¬TakesName x start r next n := by
  intro h
  have hname := nameBytes_of_field hrecord (by omega) hfield
  have hzero : 0 ∈ nameBytes x r := by
    rw [hname]
    exact List.mem_append_right _ (List.mem_replicate.mpr ⟨by omega, rfl⟩)
  by_cases hn : n = trailer
  · have hends := h.ends_iff.mpr hn
    have hne : nameBytes x r ≠ trailer := by
      intro heq
      rw [heq] at hzero
      exact absurd hzero (by decide)
    rw [records_step hrecord, if_neg hne] at hends
    obtain ⟨⟨rest, stop⟩, -, hends⟩ := bind_eq_ok.mp hends
    cases hends
  · exact not_filed_of_nul hnul hzero hrecord.name_lt.le (h.filed hn)

/-- With one NUL the name is taken as its string. -/
theorem takesName_of_one (hrecord : IsRecord x start crc r next)
    (hfield : nameField x r = n ++ [0]) (hutf8 : isUtf8 n = true) :
    TakesName x start r next n := by
  have hname : nameBytes x r = n := by
    rw [nameField_eq hrecord] at hfield
    exact List.append_cancel_right hfield
  have hrecords := records_step hrecord
  rw [hname] at hrecords
  refine ⟨⟨?_, ?_⟩, ?_, ?_⟩
  · intro hends
    by_contra hn
    rw [hrecords, if_neg hn] at hends
    obtain ⟨⟨rest, stop⟩, -, hends⟩ := bind_eq_ok.mp hends
    cases hends
  · intro hn
    rw [hrecords, if_pos hn]
  · intro hn rs stop hrs
    rw [hrecords, if_neg hn] at hrs
    obtain ⟨⟨rest, stop'⟩, -, hrs⟩ := bind_eq_ok.mp hrs
    cases hrs
    exact ⟨rest, rfl⟩
  · intro hn idx found nodes
    have hbytes : unwrap (slice x r.name.1 r.name.2) = .ok n := by
      rw [nameBytes_eq hrecord.name_lt.le, hname]
      rfl
    have hstring : okOr (fromUtf8 n) (.unsupported "cpio_name_not_utf8") = .ok n := by
      unfold fromUtf8
      rw [if_pos hutf8]
      rfl
    unfold insertRecord
    rw [hbytes, ok_bind, hstring]
    rfl

/-- A record of a newc or CRC archive is taken by the string in its name field exactly
when one NUL follows that string. -/
theorem takesName_iff (hrecord : IsRecord x start crc r next) (hk : 1 ≤ k)
    (hfield : nameField x r = n ++ List.replicate k 0) (hnul : 0 ∉ n) (hutf8 : isUtf8 n = true) :
    TakesName x start r next n ↔ k = 1 := by
  constructor
  · intro h
    by_contra hne
    exact not_takesName_of_padded hrecord (by omega) hfield hnul h
  · rintro rfl
    exact takesName_of_one hrecord hfield hutf8

end Names

theorem takesName_iff_oneFile :
    TakesName oneFile.content 0 (emptyRecordAt 0 0o100644 [0x61]) 112 [0x61] :=
  (takesName_iff (k := 1) oneFile_record (le_refl 1) (by decide +kernel) (by decide)
    (by decide)).mpr rfl

/-- An archive of one empty file `a` whose name two NULs end. -/
def paddedFile : Source :=
  ⟨emptyRecord 0o100644 [0x61, 0] ++ emptyRecord 0 trailer, by decide +kernel⟩

/-- An archive of one empty file `a`, with two NULs after the trailer's name. -/
def paddedTrailer : Source :=
  ⟨emptyRecord 0o100644 [0x61] ++ emptyRecord 0 (trailer ++ [0]), by decide +kernel⟩

theorem paddedFile_record :
    IsRecord paddedFile.content 0 false (emptyRecordAt 0 0o100644 [0x61, 0]) 116 := by
  refine ⟨?_, ?_, ?_, ?_, ?_, ?_, ?_, ?_, ⟨0, ?_, ?_⟩, ?_, ?_, ?_, ?_, ?_, ?_⟩ <;> decide +kernel

theorem paddedFile_chain :
    Chain paddedFile.content 0 [[emptyRecordAt 0 0o100644 [0x61, 0]]] := by
  have hlast : IsRecord paddedFile.content 116 false (emptyRecordAt 116 0 trailer) 240 := by
    refine ⟨?_, ?_, ?_, ?_, ?_, ?_, ?_, ?_, ⟨0, ?_, ?_⟩, ?_, ?_, ?_, ?_, ?_, ?_⟩ <;> decide +kernel
  refine .archive rfl (.record paddedFile_record (by decide +kernel)
    (.trailer hlast (by decide +kernel))) ?_ (.finish (by decide +kernel))
  intro r hr
  obtain rfl := List.mem_singleton.mp hr
  decide +kernel

theorem mount_paddedFile : ∃ c, mount plainReaders paddedFile = .ok c ∧
    c.lookup 0 [0x61] = .ok none := by
  obtain ⟨nodes, hfold⟩ := exists_insertAll
    (([[emptyRecordAt 0 0o100644 [0x61, 0]]].map (Found.mk 0 paddedFile.content)).flatMap Found.files)
  have hunpacks : Unpacks plainReaders.dec 0 paddedFile.content 0 [] maxBootFileBytes _ [] _ :=
    paddedFile_chain.unpacks 0 [] maxBootFileBytes
  have hmagic : newcMagic.isPrefixOf paddedFile.content ∨
      crcMagic.isPrefixOf paddedFile.content := by decide +kernel
  have hmount : mount plainReaders paddedFile = .ok ⟨[paddedFile.content], nodes⟩ :=
    (mount_eq_ok hmagic).mpr ⟨by decide +kernel, _, [], maxBootFileBytes, hunpacks, rfl, hfold⟩
  refine ⟨_, hmount, ?_⟩
  obtain ⟨label, h⟩ := represents_of_mount hmagic hmount hunpacks
  obtain ⟨root, hroot, hkind, -⟩ := root_node h
  rw [lookup_eq hroot hkind]
  cases hchild : root.children[([0x61] : Str)]? with
  | none => rfl
  | some child =>
    obtain ⟨hlt, hlabel⟩ := h.child 0 root [0x61] child hroot hchild
    rw [h.root, List.nil_append] at hlabel
    have hentry := h.entry child _ (List.getElem?_eq_getElem hlt)
    rw [hlabel] at hentry
    obtain ⟨file, hfile, hle⟩ := exists_file (List.cons_ne_nil _ _)
      (by rw [hentry]; exact Option.some_ne_none _)
    have hpaths : (recordFiles ([[emptyRecordAt 0 0o100644 [0x61, 0]]].map
        (Found.mk 0 paddedFile.content))).map Prod.fst = [[[0x61, 0]]] := by decide +kernel
    have hpath := List.mem_map_of_mem (f := Prod.fst) hfile
    rw [hpaths] at hpath
    rw [List.mem_singleton.mp hpath] at hle
    exact absurd hle (by decide)

theorem mount_paddedTrailer :
    mount plainReaders paddedTrailer = .error (.err (.corrupt "cpio_no_trailer")) := by
  have hfirst : IsRecord paddedTrailer.content 0 false (emptyRecordAt 0 0o100644 [0x61]) 112 := by
    refine ⟨?_, ?_, ?_, ?_, ?_, ?_, ?_, ?_, ⟨0, ?_, ?_⟩, ?_, ?_, ?_, ?_, ?_, ?_⟩ <;> decide +kernel
  have hlast : IsRecord paddedTrailer.content 112 false (emptyRecordAt 112 0 (trailer ++ [0])) 236 := by
    refine ⟨?_, ?_, ?_, ?_, ?_, ?_, ?_, ?_, ⟨0, ?_, ?_⟩, ?_, ?_, ?_, ?_, ?_, ?_⟩ <;> decide +kernel
  have hend : slice paddedTrailer.content 236 6 = none := by decide +kernel
  have hrecords : records paddedTrailer.content 0 =
      .error (.err (.corrupt "cpio_no_trailer")) := by
    rw [records_step hfirst, if_neg (by decide +kernel), records_step hlast,
      if_neg (by decide +kernel), records, hend]
    rfl
  have hinsert : insertNewcArchive paddedTrailer.content 0 [Node.dir 0o755] 0 =
      .error (.err (.corrupt "cpio_no_trailer")) := by
    unfold insertNewcArchive
    rw [hrecords]
    rfl
  have hmagic : newcMagic.isPrefixOf paddedTrailer.content = true := by decide +kernel
  have hchain : insertChain plainReaders.dec 0 paddedTrailer.content 0
      ⟨[], [Node.dir 0o755], maxBootFileBytes⟩ = .error (.err (.corrupt "cpio_no_trailer")) := by
    have hbyte : paddedTrailer.content[0]? = some 0x30 := by decide +kernel
    have hsniff : Streams.sniff (paddedTrailer.content.drop 0) = none := by decide +kernel
    rw [insertChain_at hbyte (by decide)]
    unfold insertMember
    rw [hsniff]
    simp [hmagic, hinsert, error_bind]
  have hlen : paddedTrailer.len = 236 := by decide +kernel
  have hread : paddedTrailer.readAt 0 236 = .ok paddedTrailer.content := by decide +kernel
  have hfit : checkedFullReadLen 236 = .ok 236 := by decide +kernel
  have hbudget : checkedFullReadLen maxBootFileBytes = .ok maxBootFileBytes := by decide +kernel
  unfold mount
  rw [hlen, hfit, lift_ok_bind, hread, ok_bind, if_pos (Or.inl hmagic), hbudget, lift_ok_bind]
  rw [hchain]
  rfl

/-- One more NUL, and a file is not at its path, or an archive has no end. -/
theorem padded_names_misread :
    (IsRecord paddedFile.content 0 false (emptyRecordAt 0 0o100644 [0x61, 0]) 116 ∧
      nameField paddedFile.content (emptyRecordAt 0 0o100644 [0x61, 0]) =
        [0x61] ++ List.replicate 2 0 ∧
      ¬TakesName paddedFile.content 0 (emptyRecordAt 0 0o100644 [0x61, 0]) 116 [0x61]) ∧
    (∃ c, mount plainReaders paddedFile = .ok c ∧ c.lookup 0 [0x61] = .ok none) ∧
    mount plainReaders paddedTrailer = .error (.err (.corrupt "cpio_no_trailer")) := by
  have hfield : nameField paddedFile.content (emptyRecordAt 0 0o100644 [0x61, 0]) =
      [0x61] ++ List.replicate 2 0 := by decide +kernel
  refine ⟨⟨paddedFile_record, hfield, ?_⟩, mount_paddedFile, mount_paddedTrailer⟩
  exact not_takesName_of_padded paddedFile_record (le_refl 2) hfield (by decide)

end Lamfold.Cpio
