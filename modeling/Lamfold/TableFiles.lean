import Lamfold.NodeTables
import Lamfold.Presents

/-!
Frontends with a node table that serve a graph of files. Every file has a key, and the node that
the table has for the key stands for the file. A directory is read into a record for each entry,
so the table never has the key of anything but a file.
-/
namespace Lamfold

open Effects FileGraph

namespace InternTable

variable {κ ν ι α : Type} [DecidableEq κ] {place : ι → κ} {inode : ι → ν} {t u : InternTable κ ν}

/-- Every key is that of a file, and its node is the inode of the file. -/
def OnlyFiles (place : ι → κ) (inode : ι → ν) (t : InternTable κ ν) : Prop :=
  ∀ key node, (key, node) ∈ t.byKey → ∃ i, place i = key ∧ t.inode node = .ok (inode i)

theorem OnlyFiles.intern (ht : t.OnlyFiles place inode) (i : ι) :
    (t.intern (place i) (inode i)).2.OnlyFiles place inode := by
  unfold InternTable.intern
  split
  · exact ht
  · intro key node hmem
    rcases List.mem_cons.mp hmem with heq | hold
    · obtain ⟨rfl, rfl⟩ := Prod.mk.inj heq
      exact ⟨i, rfl, inode_eq_ok.mpr List.getElem?_concat_length⟩
    · obtain ⟨j, hj, hnode⟩ := ht key node hold
      have hin := inode_eq_ok.mp hnode
      refine ⟨j, hj, inode_eq_ok.mpr ?_⟩
      exact (List.getElem?_append_left (List.getElem?_eq_some_iff.mp hin).1).trans hin

omit [DecidableEq κ] in
theorem onlyFiles_empty : (empty : InternTable κ ν).OnlyFiles place inode :=
  fun _ _ hmem => nomatch hmem

omit [DecidableEq κ] in
theorem OnlyFiles.inode_eq (ht : t.OnlyFiles place inode)
    (hsame : ∀ {i j}, place i = place j → inode i = inode j) {i : ι} {node : NodeId}
    (h : (place i, node) ∈ t.byKey) : t.inode node = .ok (inode i) := by
  obtain ⟨j, hj, hnode⟩ := ht _ _ h
  rw [hnode, hsame hj]

/-- A record of a directory is that of its entry. -/
structure RecordOf (key : α → κ) (parse : α → Outcome ν) (place : ι → κ) (inode : ι → ν)
    (entry : Str × ι) (record : Str × α) : Prop where
  name : record.1 = entry.1
  key : key record.2 = place entry.2
  parse : parse record.2 = .ok (inode entry.2)

variable {key : α → κ} {parse : α → Outcome ν} {kind : ν → FileKind} {g : Files ι}

omit [DecidableEq κ] in
/-- The first record of a name is that of the first entry of the name. -/
theorem RecordOf.find? {entries : List (Str × ι)} {records : List (Str × α)}
    (h : List.Forall₂ (RecordOf key parse place inode) entries records) (name : Str) :
    Option.Rel (RecordOf key parse place inode) (entries.find? fun entry => entry.1 = name)
      (records.find? fun record => record.1 = name) := by
  induction h with
  | nil => exact .none
  | @cons entry record entries records hfirst _ ih =>
    rw [List.find?_cons, List.find?_cons, hfirst.name]
    by_cases hthis : entry.1 = name
    · simp only [hthis, decide_true]
      exact .some hfirst
    · simp only [hthis, decide_false]
      exact ih

/-- The records of a directory are interned as the nodes of its entries. -/
theorem OnlyFiles.internAll (ht : t.OnlyFiles place inode) (hkind : ∀ i, kind (inode i) = g.kind i)
    {entries : List (Str × ι)} {records : List (Str × α)}
    (h : List.Forall₂ (RecordOf key parse place inode) entries records) :
    ∃ es u, exec (InternTable.internAll key parse kind records) t = (.ok es, u) ∧
      u.OnlyFiles place inode ∧ t.Grown u ∧
      List.Forall₂ (ListsEntry g fun node i => (place i, node) ∈ u.byKey) entries es := by
  induction h generalizing t with
  | nil => exact ⟨[], t, rfl, ht, .refl t, .nil⟩
  | @cons entry record entries records hfirst _ ih =>
    obtain ⟨name, r⟩ := record
    obtain ⟨es, u, hrun, hu, hgrown, hlists⟩ := ih (ht.intern entry.2)
    have hmem := t.mem_intern (place entry.2) (inode entry.2)
    refine ⟨⟨name, (t.intern (place entry.2) (inode entry.2)).1, kind (inode entry.2)⟩ :: es, u, ?_,
      hu, (t.intern_grown _ _).trans hgrown, .cons ?_ hlists⟩
    · have hkey : key r = place entry.2 := hfirst.key
      have hparse : parse r = .ok (inode entry.2) := hfirst.parse
      have hchild : exec (liftM (parse r) : Method (InternTable κ ν) ν) t = (.ok (inode entry.2), t) := by
        rw [exec_lift, hparse]
      rw [internAll_cons, exec_bind_of_ok hchild, hkey, exec_bind_of_ok (exec_internOne t _ _),
        exec_bind_of_ok hrun]
      rfl
    · exact ⟨hfirst.name, hgrown.keys _ hmem, hkind entry.2⟩

end InternTable

namespace NodeTable

variable {σ υ κ ν α ι : Type} [DecidableEq κ] (N : NodeTable σ υ κ ν α)

/-- How a frontend reads: it leaves the state as it is. -/
structure Reads (fs : FoldFrontend σ) : Prop where
  metadata : ∀ (P : σ → Prop) node, Preserves P (fs.metadata node)
  readAt : ∀ (P : σ → Prop) node off buf, Preserves P (fs.readAt node off buf)
  readLink : ∀ (P : σ → Prop) node, Preserves P (fs.readLink node)

/-- A lookup interns the records of the directory, or the one that it finds. -/
def LooksUp (fs : FoldFrontend σ) : Prop :=
  (∀ dir name, fs.lookup dir name = N.lookupAll dir name) ∨
    ∀ dir name, fs.lookup dir name = N.lookupOne dir name

/-- The frontend keeps the files of the graph in its table, by their keys and inodes, and its
volume has the records of the directories and the data of the files. -/
structure Stored (fs : FoldFrontend σ) (vol : υ) (g : Files ι) (place : ι → κ) (inode : ι → ν) :
    Prop where
  same : ∀ {i j}, place i = place j → inode i = inode j
  kind : ∀ i, N.kind (inode i) = g.kind i
  records : ∀ {i entries}, g.item i = .dir entries → ∃ found, N.records vol (inode i) = .ok found ∧
    List.Forall₂ (InternTable.RecordOf N.key (N.parse vol) place inode) entries found
  no_records : ∀ {i} found, g.kind i ≠ .directory → N.records vol (inode i) ≠ .ok found
  root : ∀ s t, fs.root s = fs.root t
  reads : Reads fs
  readDir : ∀ dir, fs.readDir dir = N.readDir dir
  lookup : N.LooksUp fs
  metadata : ∀ {s node i}, N.vol s = vol → (N.table s).inode node = .ok (inode i) →
    ∃ md, (exec (fs.metadata node) s).1 = .ok md ∧ Describes g i md
  readAt : ∀ {s node i data} off buf, N.vol s = vol → (N.table s).inode node = .ok (inode i) →
    g.item i = .file data → buf.length < bufferBound →
      (exec (fs.readAt node off buf) s).1 = .ok (windowOf data off buf)
  readLink : ∀ {s node i target}, N.vol s = vol → (N.table s).inode node = .ok (inode i) →
    g.item i = .link target → (exec (fs.readLink node) s).1 = .ok (some target)

/-- The volume is `vol`, the table has files only, and the root is that of the graph. -/
structure Mounted (fs : FoldFrontend σ) (vol : υ) (g : Files ι) (place : ι → κ) (inode : ι → ν)
    (s : σ) : Prop where
  vol_eq : N.vol s = vol
  only : (N.table s).OnlyFiles place inode
  root : (place g.root, fs.root s) ∈ (N.table s).byKey

/-- `node` is the number of the file's key. -/
def At (place : ι → κ) (s : σ) (node : NodeId) (i : ι) : Prop := (place i, node) ∈ (N.table s).byKey

namespace Stored

variable {N} {fs : FoldFrontend σ} {vol : υ} {g : Files ι} {place : ι → κ} {inode : ι → ν}
  {s : σ} {node : NodeId} {i : ι}

theorem inode_eq (h : N.Stored fs vol g place inode) (hs : N.Mounted fs vol g place inode s)
    (hat : N.At place s node i) : (N.table s).inode node = .ok (inode i) :=
  hs.only.inode_eq h.same hat

omit [DecidableEq κ] in
theorem exists_file (hs : N.Mounted fs vol g place inode s) {found : ν}
    (hnode : (N.table s).inode node = .ok found) : ∃ i, N.At place s node i ∧ found = inode i := by
  obtain ⟨key, hkey⟩ := InternTable.exists_key (InternTable.inode_eq_ok.mp hnode)
  obtain ⟨i, rfl, hi⟩ := hs.only _ _ hkey
  exact ⟨i, hkey, Except.ok.inj (hnode.symm.trans hi)⟩

theorem later_put (h : N.Stored fs vol g place inode) (hs : N.Mounted fs vol g place inode s)
    {u : InternTable κ ν} (hu : u.OnlyFiles place inode) (hgrown : (N.table s).Grown u) :
    Later (N.Mounted fs vol g place inode) (N.At place) s (N.put u s) where
  inv := by
    refine ⟨(N.vol_put u s).trans hs.vol_eq, ?_, ?_⟩
    · rw [N.table_put]
      exact hu
    · rw [N.table_put, h.root (N.put u s) s]
      exact hgrown.keys _ hs.root
  at_of hat := by
    unfold At at hat ⊢
    rw [N.table_put]
    exact hgrown.keys _ hat

omit [DecidableEq κ] in
theorem later_refl (hs : N.Mounted fs vol g place inode s) :
    Later (N.Mounted fs vol g place inode) (N.At place) s s := ⟨hs, fun hat => hat⟩

theorem exec_readDir_dir (h : N.Stored fs vol g place inode)
    (hs : N.Mounted fs vol g place inode s) (hat : N.At place s node i)
    {entries : List (Str × ι)} (hitem : g.item i = .dir entries) :
    ∃ es u, exec (N.readDir node) s = (.ok es, N.put u s) ∧ u.OnlyFiles place inode ∧
      (N.table s).Grown u ∧
      List.Forall₂ (ListsEntry g fun node i => (place i, node) ∈ u.byKey) entries es := by
  obtain ⟨found, hfound, hrecords⟩ := h.records hitem
  obtain ⟨es, u, hrun, hu, hgrown, hlists⟩ :=
    InternTable.OnlyFiles.internAll hs.only h.kind hrecords
  refine ⟨es, u, ?_, hu, hgrown, hlists⟩
  rw [exec_readDir, h.inode_eq hs hat, hs.vol_eq, ok_bind, hfound]
  dsimp only
  unfold onTable
  rw [exec_zoom, hrun]

theorem exec_readDir_other (h : N.Stored fs vol g place inode)
    (hs : N.Mounted fs vol g place inode s)
    (hother : ∀ i, N.At place s node i → g.kind i ≠ .directory) :
    ∃ e, (N.table s).inode node >>= N.records (N.vol s) = .error e := by
  cases hrecords : (N.table s).inode node >>= N.records (N.vol s) with
  | error e => exact ⟨e, rfl⟩
  | ok found =>
    obtain ⟨found', hnode, hfound⟩ := bind_eq_ok.mp hrecords
    obtain ⟨i, hat, rfl⟩ := exists_file hs hnode
    rw [hs.vol_eq] at hfound
    exact absurd hfound (h.no_records found (hother i hat))

theorem later_readDir (h : N.Stored fs vol g place inode) (hs : N.Mounted fs vol g place inode s)
    (node : NodeId) :
    Later (N.Mounted fs vol g place inode) (N.At place) s (exec (N.readDir node) s).2 := by
  by_cases hdir : ∃ i, N.At place s node i ∧ g.kind i = .directory
  · obtain ⟨i, hat, hkind⟩ := hdir
    obtain ⟨entries, hitem⟩ := Files.kind_directory.mp hkind
    obtain ⟨es, u, hrun, hu, hgrown, -⟩ := h.exec_readDir_dir hs hat hitem
    rw [hrun]
    exact h.later_put hs hu hgrown
  · have hother : ∀ i, N.At place s node i → g.kind i ≠ .directory :=
      fun i hat hkind => hdir ⟨i, hat, hkind⟩
    obtain ⟨e, herror⟩ := h.exec_readDir_other hs hother
    rw [exec_readDir, herror]
    exact later_refl hs

theorem exec_lookupOne_dir (h : N.Stored fs vol g place inode)
    (hs : N.Mounted fs vol g place inode s) (hat : N.At place s node i) (name : Str)
    (hdir : g.kind i = .directory) :
    ∃ r t, exec (N.lookupOne node name) s = (.ok r, t) ∧
      Option.Rel (N.At place t) r (g.child i name) ∧
      Later (N.Mounted fs vol g place inode) (N.At place) s t := by
  obtain ⟨entries, hitem⟩ := Files.kind_directory.mp hdir
  obtain ⟨found, hfound, hrecords⟩ := h.records hitem
  have hfirst := InternTable.RecordOf.find? hrecords name
  rw [Graph.child_of_dir hitem, exec_lookupOne, h.inode_eq hs hat, hs.vol_eq, ok_bind, hfound]
  dsimp only
  generalize (entries.find? fun entry => entry.1 = name) = entry at hfirst ⊢
  generalize (found.find? fun record => record.1 = name) = record at hfirst ⊢
  cases hfirst with
  | none => exact ⟨none, s, rfl, .none, later_refl hs⟩
  | @some entry record hrecord =>
    obtain ⟨name', r⟩ := record
    have hkey : N.key r = place entry.2 := hrecord.key
    have hparse : N.parse vol r = .ok (inode entry.2) := hrecord.parse
    dsimp only
    rw [hparse, hkey]
    refine ⟨_, _, rfl, .some ?_,
      h.later_put hs (hs.only.intern entry.2) ((N.table s).intern_grown _ _)⟩
    unfold At
    rw [N.table_put]
    exact (N.table s).mem_intern _ _

theorem exec_lookup_dir (h : N.Stored fs vol g place inode)
    (hs : N.Mounted fs vol g place inode s) (hat : N.At place s node i) (name : Str)
    (hdir : g.kind i = .directory) :
    ∃ r, (exec (fs.lookup node name) s).1 = .ok r ∧
      Option.Rel (N.At place (exec (fs.lookup node name) s).2) r (g.child i name) := by
  rcases h.lookup with hlookup | hlookup
  · obtain ⟨entries, hitem⟩ := Files.kind_directory.mp hdir
    obtain ⟨es, u, hrun, -, -, hlists⟩ := h.exec_readDir_dir hs hat hitem
    rw [hlookup, exec_lookupAll, hrun]
    refine ⟨entryNamed es name, rfl, ?_⟩
    unfold At
    rw [N.table_put]
    exact ListsEntry.entryNamed hlists hitem name
  · obtain ⟨r, t, hrun, hrel, -⟩ := h.exec_lookupOne_dir hs hat name hdir
    rw [hlookup, hrun]
    exact ⟨r, rfl, hrel⟩

theorem later_lookup (h : N.Stored fs vol g place inode) (hs : N.Mounted fs vol g place inode s)
    (node : NodeId) (name : Str) :
    Later (N.Mounted fs vol g place inode) (N.At place) s (exec (fs.lookup node name) s).2 := by
  rcases h.lookup with hlookup | hlookup
  · rw [hlookup, exec_lookupAll]
    exact h.later_readDir hs node
  · rw [hlookup]
    by_cases hdir : ∃ i, N.At place s node i ∧ g.kind i = .directory
    · obtain ⟨i, hat, hkind⟩ := hdir
      obtain ⟨r, t, hrun, -, hlater⟩ := h.exec_lookupOne_dir hs hat name hkind
      rw [hrun]
      exact hlater
    · have hother : ∀ i, N.At place s node i → g.kind i ≠ .directory :=
        fun i hat hkind => hdir ⟨i, hat, hkind⟩
      obtain ⟨e, herror⟩ := h.exec_readDir_other hs hother
      rw [exec_lookupOne, herror]
      exact later_refl hs

theorem lookup_other (h : N.Stored fs vol g place inode) (hs : N.Mounted fs vol g place inode s)
    (hat : N.At place s node i) (hother : g.kind i ≠ .directory) (name : Str) (child : NodeId) :
    (exec (fs.lookup node name) s).1 ≠ .ok (some child) := by
  have hrecords : ∃ e, (N.table s).inode node >>= N.records (N.vol s) = .error e := by
    rw [h.inode_eq hs hat, hs.vol_eq, ok_bind]
    cases hfound : N.records vol (inode i) with
    | error e => exact ⟨e, rfl⟩
    | ok found => exact absurd hfound (h.no_records found hother)
  obtain ⟨e, herror⟩ := hrecords
  rcases h.lookup with hlookup | hlookup
  · rw [hlookup, exec_lookupAll, exec_readDir, herror]
    exact fun hok => nomatch hok
  · rw [hlookup, exec_lookupOne, herror]
    exact fun hok => nomatch hok

theorem serves (h : N.Stored fs vol g place inode) :
    Serves fs g (N.Mounted fs vol g place inode) (N.At place) where
  later c {s} hs := by
    have hsame : ∀ {t}, t = s → Later (N.Mounted fs vol g place inode) (N.At place) s t := by
      intro t ht
      rw [ht]
      exact later_refl hs
    cases c with
    | lookup dir name => exact h.later_lookup hs dir name
    | readDir dir =>
      unfold FoldFrontend.after
      dsimp only
      rw [h.readDir]
      exact h.later_readDir hs dir
    | metadata node => exact hsame (h.reads.metadata (· = s) node s rfl)
    | readAt node off buf => exact hsame (h.reads.readAt (· = s) node off buf s rfl)
    | readLink node => exact hsame (h.reads.readLink (· = s) node s rfl)
  root hs := hs.root
  metadata hs hat := h.metadata hs.vol_eq (h.inode_eq hs hat)
  lookup name hs hat hdir := h.exec_lookup_dir hs hat name hdir
  lookup_other name child hs hat hother := h.lookup_other hs hat hother name child
  readDir {s node i entries} hs hat hitem := by
    obtain ⟨es, u, hrun, -, -, hlists⟩ := h.exec_readDir_dir hs hat hitem
    rw [h.readDir, hrun]
    refine ⟨es, rfl, ?_⟩
    unfold At
    rw [N.table_put]
    exact hlists
  readAt off buf hs hat hitem hbound :=
    h.readAt off buf hs.vol_eq (h.inode_eq hs hat) hitem hbound
  readLink hs hat hitem := h.readLink hs.vol_eq (h.inode_eq hs hat) hitem

/-- What is mounted has the root in its table, and nothing else. -/
theorem mounted (hvol : N.vol s = vol)
    (htable : N.table s = (InternTable.empty.intern (place g.root) (inode g.root)).2)
    (hroot : fs.root s = 0) : N.Mounted fs vol g place inode s where
  vol_eq := hvol
  only := by
    rw [htable]
    exact InternTable.onlyFiles_empty.intern g.root
  root := by
    rw [htable, hroot]
    exact InternTable.mem_intern _ _ _

end Stored

end NodeTable

end Lamfold
