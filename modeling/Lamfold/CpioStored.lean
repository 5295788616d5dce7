import Lamfold.CpioLinks
import Lamfold.Presents
import Mathlib.Data.List.Sort

/-!
Whole archives. The records of an input, of whatever archives and compressed members, put files
at paths: the last record at a path that is not a directory's is the file there, and elsewhere
there is a directory when a record is at the path or below it. The input stores a tree of files
when these are its files, and the names in a directory are in order.
-/
namespace Lamfold.Cpio

open Effects Bytes Utf8 FileGraph PathTree Streams

/-- What a record puts at its path. -/
structure Filed where
  path : List Str
  kind : FileKind
  data : List UInt8
  deriving DecidableEq

/-- The data of hard links are those of their file. -/
def Found.filed (a : Found) (r : Record) : Filed :=
  ⟨Path.components (nameBytes a.bytes r), fileKind r.mode, a.fileData r⟩

def ReaderEntry.filed {archive : List UInt8} (entry : ReaderEntry archive) : Filed :=
  ⟨Path.components entry.name, fileKind entry.mode, (archive.drop entry.off).take entry.len⟩

/-- The records of an input, in order: those of a chain of archives and compressed members, or
those of a single archive of an older format. -/
inductive Lists (readers : Readers) (src : Source) : List Filed → Prop
  | chain {archives : List Found} {ms : List (List UInt8)} {budget : ℕ}
      (hmagic : newcMagic.isPrefixOf src.content ∨ crcMagic.isPrefixOf src.content)
      (hunpacks : Unpacks readers.dec 0 src.content 0 [] maxBootFileBytes archives ms budget) :
      Lists readers src (archives.flatMap fun a => a.records.map a.filed)
  | single (hmagic : ¬(newcMagic.isPrefixOf src.content ∨ crcMagic.isPrefixOf src.content)) :
      Lists readers src ((readers.iterFiles src.content).map ReaderEntry.filed)

/-- The last record at the path that is not a directory's. -/
def lastFiled (p : List Str) (filed : List Filed) : Option Filed :=
  (filed.filter fun f => f.path = p ∧ f.kind ≠ .directory).getLast?

/-- A record is at the path or below it. -/
def Below (p : List Str) (filed : List Filed) : Prop := ∃ f ∈ filed, p <+: f.path

section Stored

variable {ι : Type} (filed : List Filed) (place : ι → List Str)

/-- What is at a path of the tree that the records describe. -/
inductive ItemAt (p : List Str) : Item Str (List UInt8) ι → Prop
  | dir {entries : List (Str × ι)} (hdir : p = [] ∨ lastFiled p filed = none ∧ Below p filed)
      (hsorted : entries.Pairwise fun a b => compare a.1 b.1 = .lt)
      (hnames : ∀ name, (∃ j, (name, j) ∈ entries) ↔ Below (p ++ [name]) filed)
      (hplaces : ∀ name j, (name, j) ∈ entries → place j = p ++ [name]) : ItemAt p (.dir entries)
  | file {f : Filed} (hp : p ≠ []) (hlast : lastFiled p filed = some f)
      (hkind : f.kind = .regular) : ItemAt p (.file f.data)
  | link {f : Filed} (hp : p ≠ []) (hlast : lastFiled p filed = some f)
      (hkind : f.kind = .symlink) : ItemAt p (.link f.data)
  | special {f : Filed} (hp : p ≠ []) (hlast : lastFiled p filed = some f)
      (hkind : f.kind = .other) : ItemAt p .special

/-- The input stores the files, each at its path. -/
structure Stores (readers : Readers) (src : Source) (g : Files ι) : Prop where
  len_le : src.len ≤ maxBootFileBytes
  lists : Lists readers src filed
  root : place g.root = []
  files : ∀ i, ItemAt filed place (place i) (g.item i)

/-- The entry has the kind and the data that a record puts at its path. -/
structure Puts (c : Cpio) (f : Filed) (e : Entry) : Prop where
  kind : e.kind = f.kind
  data : c.bytes e.data = .ok f.data

/-- So has a file of the archive, and its path. -/
structure FiledAs (c : Cpio) (f : Filed) (file : List Str × Entry) : Prop where
  path : file.1 = f.path
  puts : Puts c f file.2

theorem rel_getLast? {α β : Type} {R : α → β → Prop} {xs : List α} {ys : List β}
    (h : List.Forall₂ R xs ys) : Option.Rel R xs.getLast? ys.getLast? := by
  induction h with
  | nil => exact .none
  | @cons x y xs ys hfirst _ ih =>
    rw [List.getLast?_cons, List.getLast?_cons]
    generalize xs.getLast? = last at ih ⊢
    generalize ys.getLast? = last' at ih ⊢
    cases ih with
    | none => exact .some hfirst
    | some hlast => exact .some hlast

section Tree

variable {filed place} {c : Cpio} {located : List (List Str × Entry)} {p : List Str} {e : Entry}

/-- The last file that replaces what is at a path is what the last such record puts there. -/
theorem lastWinner_filed (h : List.Forall₂ (FiledAs c) filed located) (p : List Str) :
    Option.Rel (Puts c) (lastFiled p filed) (insertRule.lastWinner p located) := by
  have hsame : ∀ {f file}, FiledAs c f file → (decide (f.path = p ∧ f.kind ≠ .directory) = true ↔
      decide (file.1 = p ∧ insertRule.wins file.2 = true) = true) := by
    intro f file hfile
    simp only [decide_eq_true_eq, wins_iff, hfile.path, hfile.puts.kind]
  have hlast := rel_getLast? (List.rel_filter (fun _ _ hfile => hsame hfile) h)
  unfold lastFiled Rule.lastWinner
  generalize (List.filter _ filed).getLast? = last at hlast ⊢
  generalize (List.filter _ located).getLast? = last' at hlast ⊢
  cases hlast with
  | none => exact .none
  | some hfile => exact .some hfile.puts

theorem below_filed (h : List.Forall₂ (FiledAs c) filed located) (p : List Str) :
    (∃ file ∈ located, p <+: file.1) ↔ Below p filed := by
  unfold Below
  induction h with
  | nil => simp
  | cons hfirst _ ih => simp only [List.exists_mem_cons_iff, hfirst.path, ih]

theorem tree_ne_none_iff (h : List.Forall₂ (FiledAs c) filed located) :
    insertRule.plantAll rootTree located p ≠ none ↔ p = [] ∨ Below p filed := by
  constructor
  · intro htree
    by_cases hp : p = []
    · exact .inl hp
    · exact .inr ((below_filed h p).mp (exists_file hp htree))
  · rintro (rfl | hbelow)
    · rw [tree_root]
      exact Option.some_ne_none _
    · obtain ⟨file, hfile, hle⟩ := (below_filed h p).mpr hbelow
      exact tree_ne_none hfile hle

theorem tree_dir (h : List.Forall₂ (FiledAs c) filed located)
    (hdir : p = [] ∨ lastFiled p filed = none ∧ Below p filed)
    (htree : insertRule.plantAll rootTree located p = some e) : e.kind = .directory := by
  by_cases hp : p = []
  · rw [hp, tree_root] at htree
    rw [← Option.some.inj htree]
    rfl
  · have hlast := lastWinner_filed h p
    rw [(hdir.resolve_left hp).1] at hlast
    have hnone : insertRule.lastWinner p located = none := by
      generalize insertRule.lastWinner p located = last at hlast ⊢
      cases hlast
      rfl
    by_contra hkind
    exact insertRule.lastWinner_eq_none_iff.mp hnone e (mem_of_tree hp htree hkind)
      (wins_iff.mpr hkind)

theorem tree_last (h : List.Forall₂ (FiledAs c) filed located) {f : Filed} (hp : p ≠ [])
    (hlast : lastFiled p filed = some f)
    (htree : insertRule.plantAll rootTree located p = some e) : Puts c f e := by
  have hrel := lastWinner_filed h p
  rw [tree_apply hp] at htree
  rw [hlast] at hrel
  generalize insertRule.lastWinner p located = last at hrel htree
  cases hrel with
  | some hputs =>
    rw [Option.some_or] at htree
    exact Option.some.inj htree ▸ hputs

/-- What is in the tree at a path has the kind of the item there. -/
theorem ItemAt.kind_eq {g : Files ι} {i : ι} (hitem : ItemAt filed place p (g.item i))
    (h : List.Forall₂ (FiledAs c) filed located)
    (htree : insertRule.plantAll rootTree located p = some e) : e.kind = g.kind i := by
  unfold Files.kind
  generalize g.item i = item at hitem
  cases hitem with
  | dir hdir => exact tree_dir h hdir htree
  | file hp hlast hkind => exact (tree_last h hp hlast htree).kind.trans hkind
  | link hp hlast hkind => exact (tree_last h hp hlast htree).kind.trans hkind
  | special hp hlast hkind => exact (tree_last h hp hlast htree).kind.trans hkind

end Tree

/-- Two lists in the order of their names, with the same names, have them in the same places. -/
theorem forall₂_names {α β : Type} {xs : List (Str × α)} {ys : List (Str × β)}
    (hxs : xs.Pairwise fun a b => compare a.1 b.1 = .lt)
    (hys : ys.Pairwise fun a b => compare a.1 b.1 = .lt)
    (h : ∀ name, (∃ x, (name, x) ∈ xs) ↔ ∃ y, (name, y) ∈ ys) :
    List.Forall₂ (fun x y => (x ∈ xs ∧ y ∈ ys) ∧ y.1 = x.1) xs ys := by
  have hirrefl : Std.Irrefl fun a b : Str => compare a b = .lt :=
    ⟨fun a hlt => by rw [Std.ReflOrd.compare_self] at hlt; cases hlt⟩
  have hantisymm : Std.Antisymm fun a b : Str => compare a b = .lt :=
    ⟨fun a b hab hba => by rw [Std.OrientedCmp.gt_of_lt hab] at hba; cases hba⟩
  have hleft : (xs.map Prod.fst).Pairwise fun a b : Str => compare a b = .lt :=
    List.pairwise_map.mpr hxs
  have hright : (ys.map Prod.fst).Pairwise fun a b : Str => compare a b = .lt :=
    List.pairwise_map.mpr hys
  have hnames : xs.map Prod.fst = ys.map Prod.fst := by
    refine hleft.eq_of_mem_iff hright fun name => ?_
    simpa using h name
  have hsame : List.Forall₂ (fun a b : Str => b = a) (xs.map Prod.fst) (ys.map Prod.fst) := by
    rw [hnames]
    exact List.forall₂_same.mpr fun _ _ => rfl
  have hpairs : List.Forall₂ (fun x y => y.1 = x.1) xs ys :=
    List.forall₂_map_left_iff.mp (List.forall₂_map_right_iff.mp hsame)
  obtain ⟨hlen, hzip⟩ := List.forall₂_iff_zip.mp hpairs
  exact List.forall₂_iff_zip.mpr ⟨hlen, fun hxy => ⟨List.of_mem_zip hxy, hzip hxy⟩⟩

theorem mapM_rel {α β γ : Type} {R : α → γ → Prop} {f : β → Outcome γ} {xs : List α}
    {ys : List β} (h : List.Forall₂ (fun x y => ∃ e, f y = .ok e ∧ R x e) xs ys) :
    ∃ es, ys.mapM f = .ok es ∧ List.Forall₂ R xs es := by
  induction h with
  | nil => exact ⟨[], rfl, .nil⟩
  | cons hfirst _ ih =>
    obtain ⟨e, he, hrel⟩ := hfirst
    obtain ⟨es, hes, hrels⟩ := ih
    refine ⟨e :: es, ?_, .cons hrel hrels⟩
    rw [List.mapM_cons, he, ok_bind, hes]
    rfl

theorem bytes_length {c : Cpio} {span : Span} {data : List UInt8} (h : c.bytes span = .ok data) :
    data.length = span.len := by
  unfold bytes at h
  obtain ⟨buf, -, h⟩ := bind_eq_ok.mp h
  exact slice_length (unwrap_eq_ok.mp h)

/-- The nodes are the tree of the files that the records describe. -/
def Holds (c : Cpio) (label : ℕ → List Str) : Prop :=
  ∃ located, Represents c.nodes label (insertRule.plantAll rootTree located) ∧
    List.Forall₂ (FiledAs c) filed located

/-- The node is the file at a place of the tree. -/
structure NodeAt (c : Cpio) (label : ℕ → List Str) (node : NodeId) (i : ι) : Prop where
  lt : node < c.nodes.length
  label_eq : label node = place i

namespace Holds

variable {filed place} {g : Files ι} {c : Cpio} {label : ℕ → List Str} {node : NodeId} {i : ι}
  {n : Node} {entries : List (Str × ι)}

theorem exists_node (h : Holds filed c label) (hitem : ItemAt filed place (place i) (g.item i))
    (hnode : NodeAt place c label node i) : ∃ n, c.nodes[node]? = some n ∧ n.kind = g.kind i := by
  obtain ⟨located, hrep, hfiled⟩ := h
  have hn := List.getElem?_eq_getElem hnode.lt
  refine ⟨_, hn, ?_⟩
  have htree := hrep.entry node _ hn
  rw [hnode.label_eq] at htree
  exact hitem.kind_eq hfiled htree

/-- The data of the last record at its place are the data of a node. -/
theorem bytes_eq (h : Holds filed c label) (hnode : NodeAt place c label node i)
    (hn : c.nodes[node]? = some n) {f : Filed} (hp : place i ≠ [])
    (hlast : lastFiled (place i) filed = some f) : c.bytes n.data = .ok f.data := by
  obtain ⟨located, hrep, hfiled⟩ := h
  have htree := hrep.entry node n hn
  rw [hnode.label_eq] at htree
  exact (tree_last hfiled hp hlast htree).data

theorem children_iff (h : Holds filed c label) (hnode : NodeAt place c label node i)
    (hn : c.nodes[node]? = some n) (name : Str) :
    (∃ child, (name, child) ∈ n.children.toList) ↔ Below (place i ++ [name]) filed := by
  obtain ⟨located, hrep, hfiled⟩ := h
  have htree : insertRule.plantAll rootTree located (label node ++ [name]) ≠ none ↔
      Below (label node ++ [name]) filed := by
    rw [tree_ne_none_iff hfiled]
    exact or_iff_right (List.append_ne_nil_of_right_ne_nil _ (List.cons_ne_nil _ _))
  simp only [Std.TreeMap.mem_toList_iff_getElem?_eq_some]
  rw [← hnode.label_eq, ← htree]
  constructor
  · rintro ⟨child, hchild⟩
    obtain ⟨hlt, hlabel⟩ := hrep.child node n name child hn hchild
    rw [← hlabel, hrep.entry child _ (List.getElem?_eq_getElem hlt)]
    exact Option.some_ne_none _
  · intro hsome
    obtain ⟨child, hchild, -⟩ := hrep.exists_child hn hsome
    exact ⟨child, hchild⟩

theorem child_at (h : Holds filed c label) (hnode : NodeAt place c label node i)
    (hn : c.nodes[node]? = some n) {name : Str} {child : NodeId}
    (hchild : n.children[name]? = some child) {j : ι} (hj : place j = place i ++ [name]) :
    NodeAt place c label child j := by
  obtain ⟨located, hrep, -⟩ := h
  obtain ⟨hlt, hlabel⟩ := hrep.child node n name child hn hchild
  exact ⟨hlt, by rw [hlabel, hnode.label_eq, hj]⟩

theorem children (h : Holds filed c label) (hnode : NodeAt place c label node i)
    (hn : c.nodes[node]? = some n)
    (hsorted : entries.Pairwise fun a b => compare a.1 b.1 = .lt)
    (hnames : ∀ name, (∃ j, (name, j) ∈ entries) ↔ Below (place i ++ [name]) filed)
    (hplaces : ∀ name j, (name, j) ∈ entries → place j = place i ++ [name]) :
    List.Forall₂ (fun entry child => child.1 = entry.1 ∧ NodeAt place c label child.2 entry.2)
      entries n.children.toList := by
  have hordered : n.children.toList.Pairwise fun a b => compare a.1 b.1 = .lt :=
    Std.TreeMap.ordered_keys_toList
  have hsame : ∀ name, (∃ j, (name, j) ∈ entries) ↔ ∃ child, (name, child) ∈ n.children.toList :=
    fun name => (hnames name).trans (h.children_iff hnode hn name).symm
  refine (forall₂_names hsorted hordered hsame).imp ?_
  rintro ⟨name, j⟩ ⟨name', child⟩ ⟨⟨hentry, hchild⟩, rfl⟩
  exact ⟨rfl, h.child_at hnode hn (Std.TreeMap.mem_toList_iff_getElem?_eq_some.mp hchild)
    (hplaces name' j hentry)⟩

end Holds

namespace Stores

variable {filed place} {readers : Readers} {src : Source} {g : Files ι} {c : Cpio}
  {label : ℕ → List Str} {node : NodeId} {i : ι}

theorem lookup (h : Stores filed place readers src g) (hc : Holds filed c label)
    (hnode : NodeAt place c label node i) {entries : List (Str × ι)}
    (hitem : g.item i = .dir entries) (name : Str) :
    ∃ r, c.lookup node name = .ok r ∧ Option.Rel (NodeAt place c label) r (g.child i name) := by
  obtain ⟨n, hn, hkind⟩ := hc.exists_node (h.files i) hnode
  have hdir : n.kind = .directory := hkind.trans (Files.kind_directory.mpr ⟨entries, hitem⟩)
  refine ⟨_, lookup_eq hn hdir name, ?_⟩
  have hplace := h.files i
  rw [hitem] at hplace
  cases hplace with
  | dir _ _ hnames hplaces =>
    have hbelow := (hc.children_iff hnode hn name).trans (hnames name).symm
    simp only [Std.TreeMap.mem_toList_iff_getElem?_eq_some] at hbelow
    rw [Graph.child_of_dir hitem]
    cases hfind : entries.find? fun entry => entry.1 = name with
    | none =>
      have hnone : n.children[name]? = none := by
        refine Option.eq_none_iff_forall_ne_some.mpr fun child hchild => ?_
        obtain ⟨j, hj⟩ := hbelow.mp ⟨child, hchild⟩
        exact absurd (decide_eq_true rfl) (List.find?_eq_none.mp hfind (name, j) hj)
      rw [hnone]
      exact .none
    | some entry =>
      have hentry := List.mem_of_find?_eq_some hfind
      have hname := List.find?_some hfind
      obtain rfl : entry.1 = name := of_decide_eq_true hname
      obtain ⟨child, hchild⟩ := hbelow.mpr ⟨entry.2, hentry⟩
      rw [hchild]
      exact .some (hc.child_at hnode hn hchild (hplaces entry.1 entry.2 hentry))

theorem readDir (h : Stores filed place readers src g) (hc : Holds filed c label)
    (hnode : NodeAt place c label node i) {entries : List (Str × ι)}
    (hitem : g.item i = .dir entries) :
    ∃ es, c.readDir node = .ok es ∧
      List.Forall₂ (ListsEntry g (NodeAt place c label)) entries es := by
  obtain ⟨n, hn, hkind⟩ := hc.exists_node (h.files i) hnode
  have hdir : n.kind = .directory := hkind.trans (Files.kind_directory.mpr ⟨entries, hitem⟩)
  have hplace := h.files i
  rw [hitem] at hplace
  cases hplace with
  | dir _ hsorted hnames hplaces =>
    have hchildren := hc.children hnode hn hsorted hnames hplaces
    have hread : List.Forall₂ (fun entry child => ∃ e,
        (do let n ← unwrap c.nodes[child.2]?; return (⟨child.1, child.2, n.kind⟩ : DirEntry))
          = .ok e ∧ ListsEntry g (NodeAt place c label) entry e) entries n.children.toList := by
      refine hchildren.imp ?_
      rintro ⟨name, j⟩ ⟨name', child⟩ ⟨rfl, hchild⟩
      obtain ⟨m, hm, hmkind⟩ := hc.exists_node (h.files j) hchild
      dsimp only at hm ⊢
      rw [hm]
      exact ⟨⟨name', child, m.kind⟩, rfl, rfl, hchild, hmkind⟩
    obtain ⟨es, hes, hlists⟩ := mapM_rel hread
    refine ⟨es, ?_, hlists⟩
    unfold Cpio.readDir Cpio.node
    rw [hn, okOr, ok_bind, if_neg (not_not.mpr hdir)]
    exact hes

theorem file_data (h : Stores filed place readers src g) (hc : Holds filed c label)
    (hnode : NodeAt place c label node i) {data : List UInt8} (hitem : g.item i = .file data) :
    ∃ n, c.nodes[node]? = some n ∧ n.kind = .regular ∧ c.bytes n.data = .ok data := by
  obtain ⟨n, hn, hkind⟩ := hc.exists_node (h.files i) hnode
  have hplace := h.files i
  unfold Files.kind at hkind
  rw [hitem] at hplace hkind
  cases hplace with
  | file hp hlast _ => exact ⟨n, hn, hkind, hc.bytes_eq hnode hn hp hlast⟩

theorem link_data (h : Stores filed place readers src g) (hc : Holds filed c label)
    (hnode : NodeAt place c label node i) {target : List UInt8} (hitem : g.item i = .link target) :
    ∃ n, c.nodes[node]? = some n ∧ n.kind = .symlink ∧ c.bytes n.data = .ok target := by
  obtain ⟨n, hn, hkind⟩ := hc.exists_node (h.files i) hnode
  have hplace := h.files i
  unfold Files.kind at hkind
  rw [hitem] at hplace hkind
  cases hplace with
  | link hp hlast _ => exact ⟨n, hn, hkind, hc.bytes_eq hnode hn hp hlast⟩

theorem serves (h : Stores filed place readers src g) (hc : Holds filed c label) :
    Serves frontend g (· = c) fun _ node i => NodeAt place c label node i where
  later call s hs := ⟨(frontend_keeps (· = c)).after call hs, fun hat => hat⟩
  root {s} hs := by
    obtain ⟨located, hrep, -⟩ := hc
    have hlabel : label 0 = place g.root := by rw [hrep.root, h.root]
    exact ⟨hrep.nonempty, hlabel⟩
  metadata {s node i} hs hnode := by
    subst hs
    obtain ⟨n, hn, hkind⟩ := hc.exists_node (h.files i) hnode
    refine ⟨⟨n.kind, if n.kind = .directory then 0 else n.data.len, n.mode⟩, ?_, hkind, ?_⟩
    · change Cpio.metadata s node = _
      unfold Cpio.metadata Cpio.node
      rw [hn]
      rfl
    · intro data hitem
      obtain ⟨n', hn', hreg, hdata⟩ := h.file_data hc hnode hitem
      obtain rfl := Option.some.inj (hn.symm.trans hn')
      dsimp only
      rw [hreg, if_neg FileKind.noConfusion, bytes_length hdata]
  lookup {s node i} name hs hnode hdir := by
    subst hs
    obtain ⟨entries, hitem⟩ := Files.kind_directory.mp hdir
    exact h.lookup hc hnode hitem name
  lookup_other {s node i} name child hs hnode hother hlookup := by
    subst hs
    obtain ⟨n, hn, hkind⟩ := hc.exists_node (h.files i) hnode
    change Cpio.lookup s node name = _ at hlookup
    unfold Cpio.lookup Cpio.node at hlookup
    rw [hn, okOr, ok_bind, if_pos (hkind.trans_ne hother)] at hlookup
    cases hlookup
  readDir {s node i entries} hs hnode hitem := by
    subst hs
    exact h.readDir hc hnode hitem
  readAt {s node i data} off buf hs hnode hitem _ := by
    subst hs
    obtain ⟨n, hn, hreg, hdata⟩ := h.file_data hc hnode hitem
    have hkind : n.kind ≠ .directory := by
      rw [hreg]
      exact FileKind.noConfusion
    change Cpio.readAt s node off buf = _
    rw [readAt_eq hn hkind hdata, windowOf, List.length_take, List.length_drop]
  readLink {s node i target} hs hnode hitem := by
    subst hs
    obtain ⟨n, hn, hlink, hdata⟩ := h.link_data hc hnode hitem
    exact readLink_eq hn hlink hdata

end Stores

end Stored

/-- The records that were found are filed with the data that their spans have. -/
theorem filed_of_unpacks {dec : StreamDecoder} {c : Cpio} {x : List UInt8}
    {archives : List Found} {ms : List (List UInt8)} {budget : ℕ}
    (hunpacks : Unpacks dec 0 x 0 [] maxBootFileBytes archives ms budget)
    (hbuffers : c.buffers = x :: ms) :
    List.Forall₂ (FiledAs c) (archives.flatMap fun a => a.records.map a.filed)
      (located (archives.flatMap Found.files)) := by
  have hstored := stored_of_unpacks hunpacks hbuffers
  have hone : ∀ a ∈ archives, List.Forall₂ (FiledAs c) (a.records.map a.filed)
      (located a.files) := by
    intro a ha
    unfold located Found.files Cpio.files
    rw [List.map_map, List.forall₂_map_left_iff, List.forall₂_map_right_iff, List.forall₂_same]
    intro r hr
    obtain ⟨hbytes, -, hle⟩ := hstored a ha r hr
    have hdata : a.data r = a.fileData r :=
      data_eq_fileData (fun s hs => (hstored a ha s hs).2.1) hr
    exact ⟨rfl, rfl, (bytes_eq hbytes hle).trans (congrArg Except.ok hdata)⟩
  unfold located at hone ⊢
  rw [List.map_flatMap]
  have hsame : List.Forall₂ (fun a b => a = b ∧ a ∈ archives) archives archives :=
    List.forall₂_same.mpr fun a ha => ⟨rfl, ha⟩
  refine List.rel_flatMap hsame ?_
  rintro a _ ⟨rfl, ha⟩
  exact hone a ha

/-- An input of records is opened as the tree of them. -/
theorem Lists.mounted {readers : Readers} {src : Source} {filed : List Filed}
    (h : Lists readers src filed) (hlen : src.len ≤ maxBootFileBytes) :
    ∃ c label, mount readers src = .ok c ∧ Holds filed c label := by
  cases h with
  | @chain archives ms budget hmagic hunpacks =>
    obtain ⟨nodes, label, hfold, hrep⟩ :=
      insertAll_represents represents_root (archives.flatMap Found.files)
    have hmount : mount readers src = .ok ⟨src.content :: ms, nodes⟩ :=
      (mount_eq_ok hmagic).mpr ⟨hlen, archives, ms, budget, hunpacks, rfl, hfold⟩
    exact ⟨_, label, hmount, _, hrep, filed_of_unpacks hunpacks rfl⟩
  | single hmagic =>
    obtain ⟨nodes, label, hfold, hrep⟩ := insertAll_represents represents_root
      ((readers.iterFiles src.content).map fun entry =>
        (entry.name, ⟨fileKind entry.mode, entry.mode &&& 0o7777, ⟨0, entry.off, entry.len⟩⟩))
    refine ⟨⟨[src.content], nodes⟩, label, ?_, _, hrep, ?_⟩
    · unfold insertAll at hfold
      rw [List.foldlM_map] at hfold
      have hread : src.readAt 0 src.len = .ok src.content :=
        Source.readAt_eq_ok.mpr (slice_eq_some.mpr ⟨by simp [Source.len], by simp [Source.len]⟩)
      unfold mount
      rw [checkedFullReadLen_eq_ok.mpr ⟨hlen, rfl⟩, lift_ok_bind, hread, ok_bind, if_neg hmagic]
      unfold insertSingle
      rw [hfold]
      rfl
    · unfold located
      rw [List.map_map, List.forall₂_map_left_iff, List.forall₂_map_right_iff, List.forall₂_same]
      intro entry _
      exact ⟨rfl, rfl, bytes_eq rfl entry.in_range⟩

/-- An input that stores files is opened, and presents them. -/
theorem cpio_presents {ι : Type} {filed : List Filed} {place : ι → List Str} {readers : Readers}
    {src : Source} {g : Files ι} (h : Stores filed place readers src g) :
    ∃ c, mount readers src = .ok c ∧ Presents frontend g c := by
  obtain ⟨c, label, hmount, hc⟩ := h.lists.mounted h.len_le
  exact ⟨c, hmount, (h.serves hc).presents rfl⟩

def linksFiled : List Filed := [⟨[[0x61]], .regular, [0x78]⟩, ⟨[[0x62]], .regular, [0x78]⟩]

def linksPlace : Few → List Str
  | .root => []
  | .first => [[0x61]]
  | .second => [[0x62]]

/-- Each link has the data that the archive has once. -/
def linksGraph : Files Few where
  root := .root
  item
    | .root => .dir [([0x61], .first), ([0x62], .second)]
    | .first => .file [0x78]
    | .second => .file [0x78]

theorem lists_twoLinks : Lists plainReaders twoLinks linksFiled := by
  have hmagic : newcMagic.isPrefixOf twoLinks.content ∨ crcMagic.isPrefixOf twoLinks.content := by
    decide +kernel
  have hlists : Lists plainReaders twoLinks _ :=
    .chain hmagic (twoLinks_chain.unpacks 0 [] maxBootFileBytes)
  have hfiled : ([twoLinksFound.records].map (Found.mk 0 twoLinks.content)).flatMap
      (fun a => a.records.map a.filed) = linksFiled := by
    decide +kernel
  rwa [hfiled] at hlists

theorem below_linksFiled (name : Str) :
    Below [name] linksFiled ↔ name = [0x61] ∨ name = [0x62] := by
  simp [Below, linksFiled]

theorem stores_twoLinks : Stores linksFiled linksPlace plainReaders twoLinks linksGraph where
  len_le := by decide +kernel
  lists := lists_twoLinks
  root := rfl
  files
    | .root => by
      refine .dir (.inl rfl) (by decide) ?_ ?_
      · intro name
        rw [linksPlace, List.nil_append, below_linksFiled]
        simp [exists_or]
      · intro name j hj
        rcases List.mem_pair.mp hj with heq | heq
        · obtain ⟨rfl, rfl⟩ := Prod.mk.inj heq
          rfl
        · obtain ⟨rfl, rfl⟩ := Prod.mk.inj heq
          rfl
    | .first => .file (f := ⟨[[0x61]], .regular, [0x78]⟩) (by decide) (by decide) rfl
    | .second => .file (f := ⟨[[0x62]], .regular, [0x78]⟩) (by decide) (by decide) rfl

theorem cpio_presents_twoLinks :
    ∃ c, mount plainReaders twoLinks = .ok c ∧ Presents frontend linksGraph c :=
  cpio_presents stores_twoLinks

end Lamfold.Cpio
