import Lamfold.CpioChain

/-!
Which record a path of a mounted archive shows. A record of another kind than a
directory replaces what its path held, a directory record never does, and a
replaced node keeps its children. So the last record at every path wins exactly
when no path lies below a path that is not a directory's, and every directory
record agrees with the node it finds.
-/
namespace Lamfold.Cpio

open Effects Streams PathTree

/-- The path's components looked up one after another. -/
def walkPath (c : Cpio) (node : NodeId) : List Str → Outcome NodeId
  | [] => .ok node
  | comp :: rest => do
    let child ← c.lookup node comp
    let child ← okOr child .notFound
    walkPath c child rest

/-- The node shows the entry: its kind, its permission bits, and its data
unless it is a directory. -/
def Shows (c : Cpio) (id : NodeId) (e : Entry) : Prop :=
  ∃ n, c.nodes[id]? = some n ∧ n.kind = e.kind ∧ n.mode = e.mode ∧
    (e.kind ≠ .directory → n.data = e.data)

/-- Every path whose ancestors end as directories shows its last record, and
only directories have children. -/
structure LastWins (c : Cpio) (files : List (List Str × Entry)) : Prop where
  last : ∀ p e, lastAt p files = some e →
    (∀ q e', q <+: p → q ≠ p → lastAt q files = some e' → e'.kind = .directory) →
    ∃ id, walkPath c 0 p = .ok id ∧ Shows c id e
  children : ∀ (id : ℕ) n (name : Str) (child : ℕ), c.nodes[id]? = some n →
    n.children[name]? = some child → n.kind = .directory

/-- No record meets a node of the wrong kind or with other permission bits. -/
structure Settled (files : List (List Str × Entry)) : Prop where
  /-- No path lies below one with a record of another kind than a directory. -/
  below : ∀ q e, (q, e) ∈ files → q ≠ [] → e.kind ≠ .directory →
    ∀ file ∈ files, q <+: file.1 → file.1 = q
  root : ∀ e, lastAt [] files = some e → e.kind = .directory ∧ e.mode = 0o755
  /-- Where a directory is the last record there are only directories, and the
  mode is that of the first record at the path, or the implied one when a record
  below it came first. -/
  directory : ∀ p e, p ≠ [] → lastAt p files = some e → e.kind = .directory →
    (∀ e', (p, e') ∈ files → e'.kind = .directory) ∧
      (insertRule.created p files).map Entry.mode = some e.mode

section Tree

variable {c : Cpio} {label : ℕ → List Str} {tree : Tree Str Entry}

theorem lookup_eq {id : ℕ} {n : Node} (hn : c.nodes[id]? = some n) (hkind : n.kind = .directory)
    (name : Str) : c.lookup id name = .ok n.children[name]? := by
  simp [lookup, node, hn, okOr, ok_bind, hkind]
  rfl

/-- Where a walk ends, the labels say. -/
theorem label_of_walkPath (h : Represents c.nodes label tree) {start id : ℕ} {p : List Str}
    (hstart : start < c.nodes.length) (hwalk : walkPath c start p = .ok id) :
    id < c.nodes.length ∧ label id = label start ++ p := by
  induction p generalizing start with
  | nil =>
    obtain rfl : start = id := Except.ok.inj hwalk
    exact ⟨hstart, (List.append_nil _).symm⟩
  | cons comp rest ih =>
    obtain ⟨found, hlookup, hwalk⟩ := bind_eq_ok.mp hwalk
    obtain ⟨child, hchild, hwalk⟩ := bind_eq_ok.mp hwalk
    rw [okOr_eq_ok] at hchild
    subst hchild
    obtain ⟨n, hnode, hlookup⟩ := bind_eq_ok.mp hlookup
    have hn : c.nodes[start]? = some n := okOr_eq_ok.mp hnode
    split at hlookup
    · exact absurd hlookup (fail_ne_ok _ _)
    · obtain ⟨hlt, hlabel⟩ := h.child start n comp child hn (Except.ok.inj hlookup)
      obtain ⟨hid, hidlabel⟩ := ih hlt hwalk
      exact ⟨hid, by rw [hidlabel, hlabel, List.append_assoc, List.singleton_append]⟩

/-- A walk over directories reaches every path of the tree. -/
theorem walkPath_of_directories (h : Represents c.nodes label tree) {start : ℕ} {p : List Str}
    (hstart : start < c.nodes.length) (hend : tree (label start ++ p) ≠ none)
    (hdirs : ∀ q, q <+: p → q ≠ p → ∀ e, tree (label start ++ q) = some e → e.kind = .directory) :
    ∃ id, walkPath c start p = .ok id := by
  induction p generalizing start with
  | nil => exact ⟨start, rfl⟩
  | cons comp rest ih =>
    have hn := List.getElem?_eq_getElem hstart
    have hentry := h.entry start _ hn
    have hkind : c.nodes[start].kind = .directory := by
      refine hdirs [] List.nil_prefix (by simp) c.nodes[start].entry ?_
      rw [List.append_nil]
      exact hentry
    have hchild : tree (label start ++ [comp]) ≠ none := by
      cases rest with
      | nil => exact hend
      | cons next rest =>
        intro hnone
        have hnone' := h.closed.none_append hnone (next :: rest)
        rw [List.append_assoc, List.singleton_append] at hnone'
        exact hend hnone'
    obtain ⟨child, hget, hlt, hlabel⟩ := h.exists_child hn hchild
    have hassoc : ∀ tail, label child ++ tail = label start ++ comp :: tail := by
      intro tail
      rw [hlabel, List.append_assoc, List.singleton_append]
    obtain ⟨id, hid⟩ := ih hlt (by rwa [hassoc]) (by
      intro q hq hne e he
      rw [hassoc] at he
      exact hdirs (comp :: q) (List.cons_prefix_cons.mpr ⟨rfl, hq⟩)
        (fun heq => hne (List.cons.inj heq).2) e he)
    refine ⟨id, ?_⟩
    rw [walkPath, lookup_eq hn hkind, ok_bind, hget]
    exact hid

end Tree

section Opened

variable {c : Cpio} {label : ℕ → List Str} {files : List (List Str × Entry)}

theorem wins_iff {e : Entry} : insertRule.wins e = true ↔ e.kind ≠ .directory := by
  simp [insertRule]

theorem tree_root : insertRule.plantAll rootTree files [] = some insertRule.implied :=
  insertRule.plantAll_nil_apply rootTree files

theorem tree_apply {q : List Str} (hq : q ≠ []) :
    insertRule.plantAll rootTree files q =
      (insertRule.lastWinner q files).or (insertRule.created q files) :=
  insertRule.plantAll_root_apply insertRule.implied files hq

/-- A node of another kind than a directory comes from a record at its path. -/
theorem mem_of_tree {q : List Str} {e : Entry} (hq : q ≠ [])
    (htree : insertRule.plantAll rootTree files q = some e) (hkind : e.kind ≠ .directory) :
    (q, e) ∈ files := by
  rw [tree_apply hq] at htree
  rcases Option.or_eq_some_iff.mp htree with hwinner | ⟨-, hcreated⟩
  · exact (insertRule.lastWinner_eq_some hwinner).1
  · rcases insertRule.created_eq_some hcreated with hmem | rfl
    · exact hmem
    · exact absurd rfl hkind

/-- Every path at or above a record's is in the tree. -/
theorem tree_ne_none {q : List Str} {file : List Str × Entry} (hmem : file ∈ files)
    (hle : q <+: file.1) : insertRule.plantAll rootTree files q ≠ none := by
  by_cases hq : q = []
  · rw [hq, tree_root]
    exact Option.some_ne_none _
  · intro hnone
    rw [tree_apply hq] at hnone
    obtain ⟨-, hcreated⟩ := Option.or_eq_none_iff.mp hnone
    exact insertRule.created_eq_none_iff.mp hcreated file hmem hle

/-- Every path of the tree below the root is at or above a record's. -/
theorem exists_file {q : List Str} (hq : q ≠ [])
    (htree : insertRule.plantAll rootTree files q ≠ none) : ∃ file ∈ files, q <+: file.1 := by
  by_contra hnot
  apply htree
  have hfiles : ∀ file ∈ files, ¬ q <+: file.1 := fun file hfile hle =>
    hnot ⟨file, hfile, hle⟩
  rw [tree_apply hq, insertRule.created_eq_none_iff.mpr hfiles, Option.or_none]
  refine insertRule.lastWinner_eq_none_iff.mpr ?_
  intro e hmem
  exact absurd (List.prefix_refl q) (hfiles (q, e) hmem)

/-- Where the last record is a directory and all records are, the node is the
directory its first record made. -/
theorem directory_of_created {q : List Str} {e : Entry} (hq : q ≠ [])
    (hdirs : ∀ e', (q, e') ∈ files → e'.kind = .directory)
    (htree : insertRule.plantAll rootTree files q = some e) :
    e.kind = .directory ∧ insertRule.created q files = some e := by
  have hnone : insertRule.lastWinner q files = none := by
    refine insertRule.lastWinner_eq_none_iff.mpr ?_
    intro e' hmem hwins
    exact wins_iff.mp hwins (hdirs e' hmem)
  rw [tree_apply hq, hnone, Option.none_or] at htree
  refine ⟨?_, htree⟩
  rcases insertRule.created_eq_some htree with hmem | rfl
  · exact hdirs e hmem
  · rfl

theorem exists_snoc_prefix {q p : List Str} (hle : q <+: p) (hne : q ≠ p) :
    ∃ name, q ++ [name] <+: p := by
  obtain ⟨tail, rfl⟩ := hle
  cases tail with
  | nil => exact absurd (List.append_nil q).symm hne
  | cons name tail => exact ⟨name, tail, by simp⟩

variable (h : Represents c.nodes label (insertRule.plantAll rootTree files))

include h

theorem below_of_lastWins (hwins : LastWins c files) {q : List Str} {e : Entry}
    (hmem : (q, e) ∈ files) (hq : q ≠ []) (hkind : e.kind ≠ .directory)
    {file : List Str × Entry} (hfile : file ∈ files) (hle : q <+: file.1) : file.1 = q := by
  by_contra hne
  obtain ⟨name, hbelow⟩ := exists_snoc_prefix hle (Ne.symm hne)
  obtain ⟨i, hi, hlabel⟩ := h.exists_node (tree_ne_none hmem (List.prefix_refl q))
  have hn := List.getElem?_eq_getElem hi
  have hentry := h.entry i _ hn
  have hsome := tree_ne_none hfile hbelow
  rw [← hlabel] at hsome
  obtain ⟨child, hchild, -⟩ := h.exists_child hn hsome
  have hdir := hwins.children i _ name child hn hchild
  -- the node shows a record that is not a directory's
  rw [hlabel, tree_apply hq] at hentry
  obtain ⟨w, hw⟩ := Option.ne_none_iff_exists'.mp fun hnone =>
    insertRule.lastWinner_eq_none_iff.mp hnone e hmem (wins_iff.mpr hkind)
  rw [hw, Option.some_or] at hentry
  obtain rfl : w = c.nodes[i].entry := Option.some.inj hentry
  exact wins_iff.mp (insertRule.lastWinner_eq_some hw).2 hdir

theorem root_node : ∃ n, c.nodes[0]? = some n ∧ n.kind = .directory ∧ n.mode = 0o755 := by
  have hn := List.getElem?_eq_getElem h.nonempty
  have hentry := h.entry 0 _ hn
  rw [h.root, tree_root] at hentry
  have heq := Option.some.inj hentry
  exact ⟨_, hn, (congrArg Entry.kind heq).symm, (congrArg Entry.mode heq).symm⟩

theorem settled_of_lastWins (hwins : LastWins c files) : Settled files := by
  have hroot : ∀ e, lastAt [] files = some e → e.kind = .directory ∧ e.mode = 0o755 := by
    intro e hlast
    obtain ⟨id, hwalk, n, hn, hkind, hmode, -⟩ := hwins.last [] e hlast
      fun q e' hq hne => absurd (List.prefix_nil.mp hq) hne
    obtain rfl : 0 = id := Except.ok.inj hwalk
    obtain ⟨n', hn', hkind', hmode'⟩ := root_node h
    rw [hn] at hn'
    obtain rfl : n = n' := Option.some.inj hn'
    exact ⟨hkind ▸ hkind', hmode ▸ hmode'⟩
  have hbelow : ∀ q e, (q, e) ∈ files → q ≠ [] → e.kind ≠ .directory →
      ∀ file ∈ files, q <+: file.1 → file.1 = q := fun q e hmem hq hkind file hfile =>
    below_of_lastWins h hwins hmem hq hkind hfile
  refine ⟨hbelow, hroot, ?_⟩
  intro p e hp hlast hkind
  have hmem := mem_of_lastAt hlast
  obtain ⟨id, hwalk, n, hn, hnkind, hnmode, -⟩ := hwins.last p e hlast (by
    intro q e' hq hne hlast'
    by_contra hkind'
    by_cases hnil : q = []
    · subst hnil
      exact hkind' (hroot e' hlast').1
    · exact hne (hbelow q e' (mem_of_lastAt hlast') hnil hkind' (p, e) hmem hq).symm)
  obtain ⟨hid, hlabel⟩ := label_of_walkPath h h.nonempty hwalk
  rw [h.root, List.nil_append] at hlabel
  have hentry := h.entry id n hn
  rw [hlabel] at hentry
  have hdirs : ∀ e', (p, e') ∈ files → e'.kind = .directory := by
    intro e' hmem'
    by_contra hkind'
    rw [tree_apply hp] at hentry
    obtain ⟨w, hw⟩ := Option.ne_none_iff_exists'.mp fun hnone =>
      insertRule.lastWinner_eq_none_iff.mp hnone e' hmem' (wins_iff.mpr hkind')
    rw [hw, Option.some_or] at hentry
    obtain rfl : w = n.entry := Option.some.inj hentry
    exact wins_iff.mp (insertRule.lastWinner_eq_some hw).2 (hnkind.trans hkind)
  obtain ⟨-, hcreated⟩ := directory_of_created hp hdirs hentry
  exact ⟨hdirs, by rw [hcreated, Option.map_some, ← hnmode]; rfl⟩

theorem lastWins_of_settled (hsettled : Settled files) : LastWins c files := by
  -- above a record every node is a directory
  have habove : ∀ p e, (p, e) ∈ files → ∀ q, q <+: p → q ≠ p → ∀ v,
      insertRule.plantAll rootTree files q = some v → v.kind = .directory := by
    intro p e hmem q hq hne v htree
    by_contra hkind
    have hnil : q ≠ [] := by
      rintro rfl
      rw [tree_root] at htree
      exact hkind (congrArg Entry.kind (Option.some.inj htree).symm)
    have hv := mem_of_tree hnil htree hkind
    exact hne (hsettled.below q v hv hnil hkind (p, e) hmem hq).symm
  refine ⟨?_, ?_⟩
  · intro p e hlast _
    have hmem := mem_of_lastAt hlast
    have htree := tree_ne_none hmem (List.prefix_refl p)
    obtain ⟨id, hwalk⟩ := walkPath_of_directories (p := p) h h.nonempty
      (by rwa [h.root, List.nil_append])
      (by
        intro q hq hne v hv
        rw [h.root, List.nil_append] at hv
        exact habove p e hmem q hq hne v hv)
    obtain ⟨hid, hlabel⟩ := label_of_walkPath h h.nonempty hwalk
    rw [h.root, List.nil_append] at hlabel
    have hn := List.getElem?_eq_getElem hid
    have hentry := h.entry id _ hn
    rw [hlabel] at hentry
    refine ⟨id, hwalk, c.nodes[id], hn, ?_⟩
    by_cases hp : p = []
    · subst hp
      obtain ⟨hkind, hmode⟩ := hsettled.root e hlast
      rw [tree_root] at hentry
      have heq := Option.some.inj hentry
      exact ⟨(congrArg Entry.kind heq).symm.trans hkind.symm,
        (congrArg Entry.mode heq).symm.trans hmode.symm, fun hne => absurd hkind hne⟩
    by_cases hkind : e.kind = .directory
    · obtain ⟨hdirs, hmode⟩ := hsettled.directory p e hp hlast hkind
      obtain ⟨hdir, hcreated⟩ := directory_of_created hp hdirs hentry
      rw [hcreated, Option.map_some] at hmode
      exact ⟨hdir.trans hkind.symm, Option.some.inj hmode, fun hne => absurd hkind hne⟩
    · rw [tree_apply hp, insertRule.lastWinner_of_lastAt hlast (wins_iff.mpr hkind),
        Option.some_or] at hentry
      obtain rfl : e = c.nodes[id].entry := Option.some.inj hentry
      exact ⟨rfl, rfl, fun _ => rfl⟩
  · intro id n name child hn hchild
    by_contra hkind
    have hentry := h.entry id n hn
    obtain ⟨hlt, hlabel⟩ := h.child id n name child hn hchild
    have hnil : label id ≠ [] := by
      intro hnil
      rw [hnil, tree_root] at hentry
      exact hkind (congrArg Entry.kind (Option.some.inj hentry).symm)
    have hmem := mem_of_tree hnil hentry hkind
    have hbelow := h.entry child _ (List.getElem?_eq_getElem hlt)
    obtain ⟨file, hfile, hle⟩ := exists_file (q := label child) (by simp [hlabel])
      (by rw [hbelow]; exact Option.some_ne_none _)
    have hat := hsettled.below (label id) n.entry hmem hnil hkind file hfile
      ((List.prefix_append _ [name]).trans (hlabel ▸ hle))
    have hlen := hle.length_le
    rw [hat, hlabel, List.length_append, List.length_singleton] at hlen
    omega

end Opened

/-- The records of all archives, hard links' data included, at their paths. -/
def recordFiles (archives : List Found) : List (List Str × Entry) :=
  located (archives.flatMap Found.files)

theorem represents_of_mount {readers : Readers} {src : Source} {c : Cpio}
    (hmagic : newcMagic.isPrefixOf src.content ∨ crcMagic.isPrefixOf src.content)
    (hmount : mount readers src = .ok c) {archives : List Found} {ms : List (List UInt8)}
    {budget : ℕ}
    (h : Unpacks readers.dec 0 src.content 0 [] maxBootFileBytes archives ms budget) :
    ∃ label, Represents c.nodes label (insertRule.plantAll rootTree (recordFiles archives)) := by
  obtain ⟨hlen, -⟩ := (mount_eq_ok hmagic).mp hmount
  obtain ⟨nodes, label, hfold, hrep⟩ :=
    insertAll_represents represents_root (archives.flatMap Found.files)
  have hmount' := (mount_eq_ok (c := ⟨src.content :: ms, nodes⟩) hmagic).mpr
    ⟨hlen, archives, ms, budget, h, rfl, hfold⟩
  rw [hmount] at hmount'
  obtain rfl : c = ⟨src.content :: ms, nodes⟩ := Except.ok.inj hmount'
  exact ⟨label, hrep⟩

/-- An opened input is a chain of archives and members, and the last record at
every path wins exactly when the records are settled. -/
theorem mount_lastWins_iff (readers : Readers) (src : Source) (c : Cpio)
    (hmagic : newcMagic.isPrefixOf src.content ∨ crcMagic.isPrefixOf src.content)
    (hmount : mount readers src = .ok c) :
    (∃ archives ms budget,
      Unpacks readers.dec 0 src.content 0 [] maxBootFileBytes archives ms budget) ∧
    ∀ archives ms budget,
      Unpacks readers.dec 0 src.content 0 [] maxBootFileBytes archives ms budget →
      (LastWins c (recordFiles archives) ↔ Settled (recordFiles archives)) := by
  refine ⟨?_, ?_⟩
  · obtain ⟨-, archives, ms, budget, hunpacks, -⟩ := (mount_eq_ok hmagic).mp hmount
    exact ⟨archives, ms, budget, hunpacks⟩
  · intro archives ms budget hunpacks
    obtain ⟨label, h⟩ := represents_of_mount hmagic hmount hunpacks
    exact ⟨settled_of_lastWins h, lastWins_of_settled h⟩

/-- An archive of a directory `d` and of two files `d/f`, the second with fewer
permission bits. -/
def replacedFile : Source :=
  ⟨emptyRecord 0o040755 [0x64] ++ emptyRecord 0o100644 [0x64, 0x2F, 0x66] ++
    emptyRecord 0o100600 [0x64, 0x2F, 0x66] ++ emptyRecord 0 trailer, by decide +kernel⟩

def replacedRecords : List Record :=
  [emptyRecordAt 0 0o040755 [0x64], emptyRecordAt 112 0o100644 [0x64, 0x2F, 0x66],
    emptyRecordAt 228 0o100600 [0x64, 0x2F, 0x66]]

theorem replacedFile_chain : Chain replacedFile.content 0 [replacedRecords] := by
  have hdir : IsRecord replacedFile.content 0 false (emptyRecordAt 0 0o040755 [0x64]) 112 := by
    refine ⟨?_, ?_, ?_, ?_, ?_, ?_, ?_, ?_, ⟨0, ?_, ?_⟩, ?_, ?_, ?_, ?_, ?_, ?_⟩ <;> decide +kernel
  have hfirst : IsRecord replacedFile.content 112 false
      (emptyRecordAt 112 0o100644 [0x64, 0x2F, 0x66]) 228 := by
    refine ⟨?_, ?_, ?_, ?_, ?_, ?_, ?_, ?_, ⟨0, ?_, ?_⟩, ?_, ?_, ?_, ?_, ?_, ?_⟩ <;> decide +kernel
  have hsecond : IsRecord replacedFile.content 228 false
      (emptyRecordAt 228 0o100600 [0x64, 0x2F, 0x66]) 344 := by
    refine ⟨?_, ?_, ?_, ?_, ?_, ?_, ?_, ?_, ⟨0, ?_, ?_⟩, ?_, ?_, ?_, ?_, ?_, ?_⟩ <;> decide +kernel
  have hlast : IsRecord replacedFile.content 344 false (emptyRecordAt 344 0 trailer) 468 := by
    refine ⟨?_, ?_, ?_, ?_, ?_, ?_, ?_, ?_, ⟨0, ?_, ?_⟩, ?_, ?_, ?_, ?_, ?_, ?_⟩ <;> decide +kernel
  refine .archive rfl (.record hdir (by decide +kernel) (.record hfirst (by decide +kernel)
    (.record hsecond (by decide +kernel) (.trailer hlast (by decide +kernel))))) ?_
    (.finish (by decide +kernel))
  intro r hr
  rcases List.mem_cons.mp hr with rfl | hr
  · decide +kernel
  · rcases List.mem_cons.mp hr with rfl | hr
    · decide +kernel
    · obtain rfl := List.mem_singleton.mp hr
      decide +kernel

theorem replacedFile_files : recordFiles [⟨0, replacedFile.content, replacedRecords⟩] =
    [([[0x64]], ⟨.directory, 0o755, ⟨0, 112, 0⟩⟩),
      ([[0x64], [0x66]], ⟨.regular, 0o644, ⟨0, 228, 0⟩⟩),
      ([[0x64], [0x66]], ⟨.regular, 0o600, ⟨0, 344, 0⟩⟩)] := by
  decide +kernel

theorem replacedFile_settled :
    Settled (recordFiles [⟨0, replacedFile.content, replacedRecords⟩]) := by
  rw [replacedFile_files]
  refine ⟨?_, ?_, ?_⟩
  · intro q e hmem _ hkind file hfile hprefix
    simp only [List.mem_cons, List.not_mem_nil, or_false, Prod.mk.injEq] at hmem hfile
    rcases hmem with ⟨-, rfl⟩ | ⟨rfl, -⟩ | ⟨rfl, -⟩
    · exact absurd rfl hkind
    · rcases hfile with rfl | rfl | rfl
      · exact absurd hprefix (by decide)
      · rfl
      · rfl
    · rcases hfile with rfl | rfl | rfl
      · exact absurd hprefix (by decide)
      · rfl
      · rfl
  · intro e hlast
    cases hlast
  · intro p e _ hlast hdir
    have hmem := mem_of_lastAt hlast
    simp only [List.mem_cons, List.not_mem_nil, or_false, Prod.mk.injEq] at hmem
    rcases hmem with ⟨rfl, rfl⟩ | ⟨-, rfl⟩ | ⟨-, rfl⟩
    · refine ⟨?_, by decide +kernel⟩
      intro e' hmem'
      simp only [List.mem_cons, List.not_mem_nil, or_false, Prod.mk.injEq, List.cons.injEq,
        and_false, false_and, reduceCtorEq] at hmem'
      rw [hmem'.2]
    · cases hdir
    · cases hdir

theorem mount_lastWins_iff_replacedFile : ∃ c archives ms budget,
    mount plainReaders replacedFile = .ok c ∧
      Unpacks plainReaders.dec 0 replacedFile.content 0 [] maxBootFileBytes archives ms budget ∧
      LastWins c (recordFiles archives) := by
  obtain ⟨nodes, hfold⟩ := exists_insertAll
    (([replacedRecords].map (Found.mk 0 replacedFile.content)).flatMap Found.files)
  have hunpacks : Unpacks plainReaders.dec 0 replacedFile.content 0 [] maxBootFileBytes
      _ [] _ := replacedFile_chain.unpacks 0 [] maxBootFileBytes
  have hmagic : newcMagic.isPrefixOf replacedFile.content ∨
      crcMagic.isPrefixOf replacedFile.content := by decide +kernel
  have hmount : mount plainReaders replacedFile = .ok ⟨[replacedFile.content], nodes⟩ :=
    (mount_eq_ok hmagic).mpr ⟨by decide +kernel, _, [], maxBootFileBytes, hunpacks, rfl, hfold⟩
  exact ⟨_, _, _, _, hmount, hunpacks, ((mount_lastWins_iff plainReaders replacedFile _ hmagic
    hmount).2 _ _ _ hunpacks).mpr replacedFile_settled⟩

/-- An archive of an empty file `a` and then a directory `a`. -/
def fileThenDirectory : Source :=
  ⟨emptyRecord 0o100644 [0x61] ++ emptyRecord 0o040755 [0x61] ++ emptyRecord 0 trailer,
    by decide +kernel⟩

theorem fileThenDirectory_chain : Chain fileThenDirectory.content 0
    [[emptyRecordAt 0 0o100644 [0x61], emptyRecordAt 112 0o040755 [0x61]]] := by
  have hfile : IsRecord fileThenDirectory.content 0 false
      (emptyRecordAt 0 0o100644 [0x61]) 112 := by
    refine ⟨?_, ?_, ?_, ?_, ?_, ?_, ?_, ?_, ⟨0, ?_, ?_⟩, ?_, ?_, ?_, ?_, ?_, ?_⟩ <;> decide +kernel
  have hdir : IsRecord fileThenDirectory.content 112 false
      (emptyRecordAt 112 0o040755 [0x61]) 224 := by
    refine ⟨?_, ?_, ?_, ?_, ?_, ?_, ?_, ?_, ⟨0, ?_, ?_⟩, ?_, ?_, ?_, ?_, ?_, ?_⟩ <;> decide +kernel
  have hlast : IsRecord fileThenDirectory.content 224 false (emptyRecordAt 224 0 trailer) 348 := by
    refine ⟨?_, ?_, ?_, ?_, ?_, ?_, ?_, ?_, ⟨0, ?_, ?_⟩, ?_, ?_, ?_, ?_, ?_, ?_⟩ <;> decide +kernel
  refine .archive rfl (.record hfile (by decide +kernel) (.record hdir (by decide +kernel)
    (.trailer hlast (by decide +kernel)))) ?_ (.finish (by decide +kernel))
  intro r hr
  rcases List.mem_cons.mp hr with rfl | hr
  · decide +kernel
  · obtain rfl := List.mem_singleton.mp hr
    decide +kernel

/-- A directory record does not replace a file at its path. -/
theorem mount_fileThenDirectory : ∃ c archives ms budget,
    mount plainReaders fileThenDirectory = .ok c ∧
      Unpacks plainReaders.dec 0 fileThenDirectory.content 0 [] maxBootFileBytes archives ms
        budget ∧
      ¬ LastWins c (recordFiles archives) := by
  obtain ⟨nodes, hfold⟩ := exists_insertAll
    (([[emptyRecordAt 0 0o100644 [0x61], emptyRecordAt 112 0o040755 [0x61]]].map
      (Found.mk 0 fileThenDirectory.content)).flatMap Found.files)
  have hunpacks : Unpacks plainReaders.dec 0 fileThenDirectory.content 0 [] maxBootFileBytes
      _ [] _ := fileThenDirectory_chain.unpacks 0 [] maxBootFileBytes
  have hmagic : newcMagic.isPrefixOf fileThenDirectory.content ∨
      crcMagic.isPrefixOf fileThenDirectory.content := by decide +kernel
  have hmount : mount plainReaders fileThenDirectory =
      .ok ⟨[fileThenDirectory.content], nodes⟩ := (mount_eq_ok hmagic).mpr
      ⟨by decide +kernel, _, [], maxBootFileBytes, hunpacks, rfl, hfold⟩
  refine ⟨_, _, _, _, hmount, hunpacks, ?_⟩
  intro hwins
  obtain ⟨label, h⟩ := represents_of_mount hmagic hmount hunpacks
  have hsettled := settled_of_lastWins h hwins
  obtain ⟨hdirs, -⟩ := hsettled.directory [[0x61]] ⟨.directory, 0o755, ⟨0, 224, 0⟩⟩ (by decide)
    (by decide +kernel) rfl
  exact absurd (hdirs ⟨.regular, 0o644, ⟨0, 112, 0⟩⟩ (by decide +kernel)) (by decide)

end Lamfold.Cpio
