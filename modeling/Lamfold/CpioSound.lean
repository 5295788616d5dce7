import Lamfold.CpioLastRecord
import Lamfold.Flock
import Lamfold.PathResolution

/-!
What an opened archive can be relied on for. Its nodes form one tree, every span
lies in a buffer, so no call ever leaves a table or a buffer, and a file reads as
the data of the record that it comes from.
-/
namespace Lamfold.Cpio

open Effects Bytes Streams PathTree

/-- Node `i` has the child `child` under `name`. -/
def Child (nodes : List Node) (i : ℕ) (name : Str) (child : ℕ) : Prop :=
  ∃ n, nodes[i]? = some n ∧ n.children[name]? = some child

/-- Some name leads from one node to the other. -/
def Edge (nodes : List Node) (i child : ℕ) : Prop := ∃ name, Child nodes i name child

/-- The names of a path lead from the root to a node. -/
inductive PathTo (nodes : List Node) : List Str → ℕ → Prop
  | root : PathTo nodes [] 0
  | child {p : List Str} {i child : ℕ} {name : Str} (hpath : PathTo nodes p i)
      (hchild : Child nodes i name child) : PathTo nodes (p ++ [name]) child

/-- The nodes are one tree with node 0 as its root. -/
structure IsTree (nodes : List Node) : Prop where
  nonempty : 0 < nodes.length
  child_lt : ∀ i name child, Child nodes i name child → child < nodes.length
  name : ∀ i name child, Child nodes i name child → name ≠ [] ∧ Path.slash ∉ name
  root : ∀ i name, ¬Child nodes i name 0
  parent : ∀ child < nodes.length, child ≠ 0 → ∃! e : ℕ × Str, Child nodes e.1 e.2 child
  reached : ∀ i < nodes.length, Relation.ReflTransGen (Edge nodes) 0 i
  acyclic : ∀ i, ¬Relation.TransGen (Edge nodes) i i

/-- A span lies in a buffer. -/
def Stored (buffers : List (List UInt8)) (span : Span) : Prop :=
  ∃ buf, buffers[span.buf]? = some buf ∧ span.off + span.len ≤ buf.length

section Tree

variable {nodes : List Node} {label : ℕ → List Str} {tree : Tree Str Entry}

namespace Represents

variable (h : Represents nodes label tree)

include h

theorem label_child {i child : ℕ} {name : Str} (hchild : Child nodes i name child) :
    child < nodes.length ∧ label child = label i ++ [name] := by
  obtain ⟨n, hn, hname⟩ := hchild
  exact h.child i n name child hn hname

/-- Every node is on the path of its label. -/
theorem pathTo {i : ℕ} (hi : i < nodes.length) : PathTo nodes (label i) i := by
  generalize hp : label i = p
  induction p using List.reverseRecOn generalizing i with
  | nil =>
    obtain rfl : i = 0 := h.inj i 0 hi h.nonempty (hp.trans h.root.symm)
    exact .root
  | append_singleton p name ih =>
    have hentry := h.entry i _ (List.getElem?_eq_getElem hi)
    have hsome : tree (p ++ [name]) ≠ none := by
      rw [← hp, hentry]
      exact Option.some_ne_none _
    obtain ⟨j, hj, hlabel⟩ := h.exists_node (h.closed p name hsome)
    have hn := List.getElem?_eq_getElem hj
    rw [← hlabel] at hsome
    obtain ⟨child, hchild, hlt, hclabel⟩ := h.exists_child hn hsome
    -- the child has the label of `i`, so it is `i`
    obtain rfl : child = i := by
      apply h.inj child i hlt hi
      rw [hclabel, hlabel, hp]
    exact .child (ih hj hlabel) ⟨_, hn, hchild⟩

theorem length_label_lt {i j : ℕ} (hedge : Relation.TransGen (Edge nodes) i j) :
    (label i).length < (label j).length := by
  induction hedge with
  | single hij =>
    obtain ⟨name, hchild⟩ := hij
    rw [(h.label_child hchild).2, List.length_append, List.length_singleton]
    exact Nat.lt_succ_self _
  | tail _ hjk ih =>
    obtain ⟨name, hchild⟩ := hjk
    rw [(h.label_child hchild).2, List.length_append, List.length_singleton]
    exact Nat.lt_succ_of_lt ih

theorem parent_unique {i j child : ℕ} {name name' : Str} (hi : Child nodes i name child)
    (hj : Child nodes j name' child) : i = j ∧ name = name' := by
  have hlabel := (h.label_child hi).2.symm.trans (h.label_child hj).2
  obtain ⟨hparent, hname⟩ := List.append_inj' hlabel rfl
  obtain ⟨n, hn, -⟩ := hi
  obtain ⟨n', hn', -⟩ := hj
  have hilt := (List.getElem?_eq_some_iff.mp hn).1
  have hjlt := (List.getElem?_eq_some_iff.mp hn').1
  exact ⟨h.inj i j hilt hjlt hparent, (List.cons.inj hname).1⟩

theorem not_child_root (i : ℕ) (name : Str) : ¬Child nodes i name 0 := by
  intro hchild
  have hlabel := (h.label_child hchild).2
  rw [h.root] at hlabel
  exact List.append_ne_nil_of_right_ne_nil _ (List.cons_ne_nil name []) hlabel.symm

end Represents

theorem PathTo.reached {p : List Str} {i : ℕ} (h : PathTo nodes p i) :
    Relation.ReflTransGen (Edge nodes) 0 i := by
  induction h with
  | root => exact .refl
  | child hpath hchild ih => exact ih.tail ⟨_, hchild⟩

/-- Nodes that represent a tree whose names are names are a tree. -/
theorem Represents.isTree (h : Represents nodes label tree)
    (hnames : ∀ p, tree p ≠ none → ∀ name ∈ p, name ≠ [] ∧ Path.slash ∉ name) :
    IsTree nodes where
  nonempty := h.nonempty
  child_lt i name child hchild := (h.label_child hchild).1
  name i name child hchild := by
    obtain ⟨hlt, hlabel⟩ := h.label_child hchild
    refine hnames (label child) ?_ name (by simp [hlabel])
    rw [h.entry child _ (List.getElem?_eq_getElem hlt)]
    exact Option.some_ne_none _
  root := h.not_child_root
  parent child hlt hne := by
    have hpath := h.pathTo hlt
    generalize label child = p at hpath
    cases hpath with
    | root => exact absurd rfl hne
    | @child p i _ name hp hchild =>
      refine ⟨(i, name), hchild, ?_⟩
      rintro ⟨j, name'⟩ hj
      obtain ⟨rfl, rfl⟩ := h.parent_unique hj hchild
      rfl
  reached i hi := (h.pathTo hi).reached
  acyclic i hcycle := Nat.lt_irrefl _ (h.length_label_lt hcycle)

end Tree

/-- What record `r` of the archive puts at its path. -/
def Found.entry (a : Found) (r : Record) : Entry :=
  ⟨fileKind r.mode, r.mode &&& 0o7777,
    ⟨a.idx, (dataRange (linked a.records) r).1, (dataRange (linked a.records) r).2⟩⟩

/-- The data of record `r` of the archive: its own, or that of a hard link to it. -/
def Found.data (a : Found) (r : Record) : List UInt8 :=
  (a.bytes.drop (dataRange (linked a.records) r).1).take (dataRange (linked a.records) r).2

theorem mem_recordFiles {archives : List Found} {p : List Str} {e : Entry} :
    (p, e) ∈ recordFiles archives ↔ ∃ a ∈ archives, ∃ r ∈ a.records,
      Path.components (nameBytes a.bytes r) = p ∧ a.entry r = e := by
  unfold recordFiles located
  constructor
  · intro h
    obtain ⟨file, hfile, heq⟩ := List.mem_map.mp h
    obtain ⟨a, ha, hfile⟩ := List.mem_flatMap.mp hfile
    obtain ⟨r, hr, rfl⟩ := List.mem_map.mp hfile
    obtain ⟨hp, he⟩ := Prod.mk.inj heq
    exact ⟨a, ha, r, hr, hp, he⟩
  · rintro ⟨a, ha, r, hr, rfl, rfl⟩
    refine List.mem_map.mpr ⟨(nameBytes a.bytes r, a.entry r), ?_, rfl⟩
    exact List.mem_flatMap.mpr ⟨a, ha, List.mem_map.mpr ⟨r, hr, rfl⟩⟩

/-- A hard link's data is that of a record. -/
theorem mem_of_lookup_linked {rs : List Record} {inode : Inode} {range : ℕ × ℕ}
    (h : (linked rs).lookup inode = some range) : ∃ r ∈ rs, r.data = range := by
  unfold linked at h
  induction rs using List.reverseRecOn with
  | nil => cases h
  | append_singleton rs r ih =>
    rw [List.foldl_append, List.foldl_cons, List.foldl_nil] at h
    have hrest : (rs.foldl (fun found r =>
        if r.mode &&& sIfmt = sIfreg ∧ r.nlink > 1 ∧ r.data.2 > 0 then (r.inode, r.data) :: found
        else found) []).lookup inode = some range → ∃ r' ∈ rs ++ [r], r'.data = range := by
      intro hlookup
      obtain ⟨r', hr', hdata⟩ := ih hlookup
      exact ⟨r', List.mem_append_left _ hr', hdata⟩
    split at h
    · rw [List.lookup_cons] at h
      split at h
      · exact ⟨r, by simp, Option.some.inj h⟩
      · exact hrest h
    · exact hrest h

theorem dataRange_le {x : List UInt8} {rs : List Record} {r : Record} (hr : r ∈ rs)
    (hdata : ∀ r ∈ rs, r.data.1 + r.data.2 ≤ x.length) :
    (dataRange (linked rs) r).1 + (dataRange (linked rs) r).2 ≤ x.length := by
  unfold dataRange
  split
  · cases hlookup : (linked rs).lookup r.inode with
    | none => exact hdata r hr
    | some range =>
      obtain ⟨r', hr', rfl⟩ := mem_of_lookup_linked hlookup
      exact hdata r' hr'
  · exact hdata r hr

theorem Archive.data_le {x : List UInt8} {start stop : ℕ} {rs : List Record}
    (h : Archive x start rs stop) : ∀ r ∈ rs, r.data.1 + r.data.2 ≤ x.length := by
  induction h with
  | trailer hrecord hname => exact fun r hr => absurd hr List.not_mem_nil
  | record hrecord hname hrest ih =>
    intro r hr
    rcases List.mem_cons.mp hr with rfl | hr
    · exact hrecord.data_le
    · exact ih r hr

section Unpacked

variable {dec : StreamDecoder} {idx pos b b' : ℕ} {x src : List UInt8} {ms ms' : List (List UInt8)}
  {archives : List Found}

theorem Unpacks.members (h : Unpacks dec idx x pos ms b archives ms' b') : ms <+: ms' := by
  induction h with
  | finish hpos => exact List.prefix_refl _
  | zero hzero hrest ih => exact ih
  | archive halign harchive hnamed hrest ih => exact ih
  | member hsniff hdec hinner houter ihInner ihOuter =>
    exact (List.prefix_append _ _).trans (ihInner.trans ihOuter)

theorem getElem?_members {i : ℕ} (hms : ms <+: ms') (h : (src :: ms)[i]? = some x) :
    (src :: ms')[i]? = some x := by
  obtain ⟨more, rfl⟩ := hms
  rw [← List.cons_append, List.getElem?_append_left (List.getElem?_eq_some_iff.mp h).1]
  exact h

/-- An archive found is in its buffer, and its records' data as well. -/
theorem Unpacks.stored (h : Unpacks dec idx x pos ms b archives ms' b')
    (hidx : (src :: ms)[idx]? = some x) :
    ∀ a ∈ archives, (src :: ms')[a.idx]? = some a.bytes ∧
      ∀ r ∈ a.records, r.data.1 + r.data.2 ≤ a.bytes.length := by
  induction h with
  | finish hpos => exact fun a ha => absurd ha List.not_mem_nil
  | zero hzero hrest ih => exact ih hidx
  | archive halign harchive hnamed hrest ih =>
    intro a ha
    rcases List.mem_cons.mp ha with rfl | ha
    · exact ⟨getElem?_members hrest.members hidx, harchive.data_le⟩
    · exact ih hidx a ha
  | @member x pos used codec out ms b inner ms₁ b₁ outer ms' b' hsniff hdec hinner houter ihInner
      ihOuter =>
    intro a ha
    rcases List.mem_append.mp ha with ha | ha
    · obtain ⟨hbytes, hdata⟩ := ihInner (by simp) a ha
      exact ⟨getElem?_members houter.members hbytes, hdata⟩
    · exact ihOuter (getElem?_members hinner.members (getElem?_members
        (List.prefix_append ms [out]) hidx)) a ha

end Unpacked

section Calls

variable {c : Cpio}

theorem bytes_eq {span : Span} {buf : List UInt8} (hbuf : c.buffers[span.buf]? = some buf)
    (hle : span.off + span.len ≤ buf.length) :
    c.bytes span = .ok ((buf.drop span.off).take span.len) := by
  have hslice : slice buf span.off span.len = some ((buf.drop span.off).take span.len) :=
    slice_eq_some.mpr ⟨hle, rfl⟩
  rw [bytes, hbuf, unwrap, ok_bind, hslice]
  rfl

theorem readAt_eq {id : ℕ} {n : Node} {data : List UInt8} (hn : c.nodes[id]? = some n)
    (hkind : n.kind ≠ .directory) (hdata : c.bytes n.data = .ok data) (off : ℕ)
    (buf : List UInt8) :
    c.readAt id off buf =
      .ok (min buf.length (data.length - off), overwrite buf 0 ((data.drop off).take buf.length)) := by
  have hnode : c.node id = .ok n := okOr_eq_ok.mpr hn
  rw [readAt, hnode, ok_bind, if_neg hkind, hdata, ok_bind]
  by_cases hoff : off ≥ data.length
  · rw [if_pos hoff, List.drop_eq_nil_of_le hoff, Nat.sub_eq_zero_of_le hoff, Nat.min_zero,
      List.take_nil, overwrite_nil]
    rfl
  · have hwindow : slice data off (min buf.length (data.length - off)) =
        some ((data.drop off).take buf.length) := by
      refine slice_eq_some.mpr ⟨by omega, ?_⟩
      rw [← List.length_drop, ← List.take_take, List.take_length]
    rw [if_neg hoff]
    simp only [hwindow, unwrap, ok_bind]
    rfl

theorem readLink_eq {id : ℕ} {n : Node} {data : List UInt8} (hn : c.nodes[id]? = some n)
    (hkind : n.kind = .symlink) (hdata : c.bytes n.data = .ok data) :
    c.readLink id = .ok (some data) := by
  have hnode : c.node id = .ok n := okOr_eq_ok.mpr hn
  rw [readLink, hnode, ok_bind, if_neg (not_not.mpr hkind), hdata, ok_bind]
  rfl

theorem answers_of_sound (htree : IsTree c.nodes)
    (hspans : ∀ (id : ℕ) n, c.nodes[id]? = some n → Stored c.buffers n.data) (call : Call) :
    frontend.Answers call c := by
  have hbytes : ∀ (id : ℕ) n, c.node id = .ok n → Answered (c.bytes n.data) := by
    intro id n hn
    obtain ⟨buf, hbuf, hle⟩ := hspans id n (okOr_eq_ok.mp hn)
    exact answered_of_eq_ok (bytes_eq hbuf hle)
  cases call with
  | lookup dir name =>
    show Answered (c.lookup dir name)
    exact Answered.bind (answered_okOr ..) fun n _ =>
      Answered.ite (fun _ => answered_fail _) fun _ => trivial
  | readDir dir =>
    show Answered (c.readDir dir)
    refine Answered.bind (answered_okOr ..) fun n hn => ?_
    refine Answered.ite (fun _ => answered_fail _) fun _ => Answered.mapM ?_
    rintro ⟨name, child⟩ hmem
    have hchild : n.children[name]? = some child :=
      Std.TreeMap.mem_toList_iff_getElem?_eq_some.mp hmem
    have hlt := htree.child_lt dir name child ⟨n, okOr_eq_ok.mp hn, hchild⟩
    refine Answered.bind ?_ fun _ _ => trivial
    rw [answered_unwrap, List.getElem?_eq_getElem hlt]
    exact Option.some_ne_none _
  | metadata id =>
    show Answered (c.metadata id)
    exact Answered.bind (answered_okOr ..) fun n _ => trivial
  | readAt id off buf =>
    show Answered (c.readAt id off buf)
    by_cases hid : ∃ n, c.node id = .ok n ∧ n.kind ≠ .directory
    · obtain ⟨n, hn, hkind⟩ := hid
      obtain ⟨buf', hbuf, hle⟩ := hspans id n (okOr_eq_ok.mp hn)
      exact answered_of_eq_ok (readAt_eq (okOr_eq_ok.mp hn) hkind (bytes_eq hbuf hle) off buf)
    · refine Answered.bind (answered_okOr ..) fun n hn => ?_
      refine Answered.ite (fun _ => answered_fail _) fun hkind => ?_
      exact absurd ⟨n, hn, hkind⟩ hid
  | readLink id =>
    show Answered (c.readLink id)
    refine Answered.bind (answered_okOr ..) fun n hn => ?_
    exact Answered.ite (fun _ => trivial) fun _ => Answered.bind (hbytes id n hn) fun _ _ => trivial

end Calls

/-- Node `id`, which is `n`, shows the last record at its path that is not a
directory's, and its calls return that record's data. -/
def ReadsRecord (c : Cpio) (archives : List Found) (id : ℕ) (n : Node) : Prop :=
  ∃ p, PathTo c.nodes p id ∧ ∃ a ∈ archives, ∃ r ∈ a.records,
    Path.components (nameBytes a.bytes r) = p ∧ n.entry = a.entry r ∧
    insertRule.lastWinner p (recordFiles archives) = some (a.entry r) ∧
    (∀ off buf, c.readAt id off buf = .ok (min buf.length ((a.data r).length - off),
      overwrite buf 0 (((a.data r).drop off).take buf.length))) ∧
    (n.kind = .symlink → c.readLink id = .ok (some (a.data r)))

section Mounted

variable {c : Cpio} {archives : List Found} {label : ℕ → List Str}

theorem names_of_recordFiles {p : List Str}
    (htree : insertRule.plantAll rootTree (recordFiles archives) p ≠ none) :
    ∀ name ∈ p, name ≠ [] ∧ Path.slash ∉ name := by
  intro name hname
  obtain ⟨⟨q, e⟩, hfile, hle⟩ := exists_file (List.ne_nil_of_mem hname) htree
  obtain ⟨a, -, r, -, rfl, -⟩ := mem_recordFiles.mp hfile
  obtain ⟨hne, hslash, -⟩ := Path.mem_components (hle.subset hname)
  exact ⟨hne, hslash⟩

/-- A node has no data, or it comes from a record. -/
theorem data_of_node (h : Represents c.nodes label (insertRule.plantAll rootTree
      (recordFiles archives))) {id : ℕ} {n : Node} (hn : c.nodes[id]? = some n) :
    n.data = ⟨0, 0, 0⟩ ∨ ∃ a ∈ archives, ∃ r ∈ a.records, n.entry = a.entry r := by
  have hentry := h.entry id n hn
  by_cases hroot : label id = []
  · rw [hroot, tree_root] at hentry
    exact Or.inl (congrArg Entry.data (Option.some.inj hentry)).symm
  rw [tree_apply hroot] at hentry
  have hmem : (label id, n.entry) ∈ recordFiles archives ∨ n.entry = insertRule.implied := by
    rcases Option.or_eq_some_iff.mp hentry with hwinner | ⟨-, hcreated⟩
    · exact Or.inl (insertRule.lastWinner_eq_some hwinner).1
    · exact insertRule.created_eq_some hcreated
  rcases hmem with hmem | himplied
  · obtain ⟨a, ha, r, hr, -, he⟩ := mem_recordFiles.mp hmem
    exact Or.inr ⟨a, ha, r, hr, he.symm⟩
  · exact Or.inl (congrArg Entry.data himplied)

/-- A node of another kind than a directory is the last such record at its path. -/
theorem lastWinner_of_node (h : Represents c.nodes label (insertRule.plantAll rootTree
      (recordFiles archives))) {id : ℕ} {n : Node} (hn : c.nodes[id]? = some n)
    (hkind : n.kind ≠ .directory) :
    insertRule.lastWinner (label id) (recordFiles archives) = some n.entry := by
  have hentry := h.entry id n hn
  have hroot : label id ≠ [] := by
    intro hroot
    rw [hroot, tree_root] at hentry
    exact hkind (congrArg Entry.kind (Option.some.inj hentry)).symm
  have hmem := mem_of_tree hroot hentry hkind
  rw [tree_apply hroot] at hentry
  rcases Option.or_eq_some_iff.mp hentry with hwinner | ⟨hnone, -⟩
  · exact hwinner
  · exact absurd (wins_iff.mpr hkind) (insertRule.lastWinner_eq_none_iff.mp hnone _ hmem)

theorem stored_of_unpacks {dec : StreamDecoder} {x : List UInt8} {ms : List (List UInt8)}
    {budget : ℕ} (hunpacks : Unpacks dec 0 x 0 [] maxBootFileBytes archives ms budget)
    (hbuffers : c.buffers = x :: ms) : ∀ a ∈ archives, ∀ r ∈ a.records,
      c.buffers[a.idx]? = some a.bytes ∧ r.data.1 + r.data.2 ≤ a.bytes.length ∧
        (a.entry r).data.off + (a.entry r).data.len ≤ a.bytes.length := by
  intro a ha r hr
  have hinput : (x :: ([] : List (List UInt8)))[0]? = some x := rfl
  obtain ⟨hbytes, hdata⟩ := hunpacks.stored hinput a ha
  exact ⟨hbuffers ▸ hbytes, hdata r hr, dataRange_le hr hdata⟩

/-- A node of another kind than a directory reads as its record. -/
theorem readsRecord_of_node (h : Represents c.nodes label (insertRule.plantAll rootTree
      (recordFiles archives)))
    (hfound : ∀ a ∈ archives, ∀ r ∈ a.records, c.buffers[a.idx]? = some a.bytes ∧
      (a.entry r).data.off + (a.entry r).data.len ≤ a.bytes.length)
    {id : ℕ} {n : Node} (hn : c.nodes[id]? = some n) (hkind : n.kind ≠ .directory) :
    ReadsRecord c archives id n := by
  have hwinner := lastWinner_of_node h hn hkind
  obtain ⟨a, ha, r, hr, hpath, hentry⟩ :=
    mem_recordFiles.mp (insertRule.lastWinner_eq_some hwinner).1
  obtain ⟨hbytes, hle⟩ := hfound a ha r hr
  have hspan : (a.entry r).data = n.data := congrArg Entry.data hentry
  have hdata : c.bytes n.data = .ok (a.data r) := hspan ▸ bytes_eq hbytes hle
  refine ⟨label id, h.pathTo (List.getElem?_eq_some_iff.mp hn).1, a, ha, r, hr, hpath,
    hentry.symm, hentry ▸ hwinner, readAt_eq hn hkind hdata, ?_⟩
  exact fun hlink => readLink_eq hn hlink hdata

end Mounted

/-- An input that starts with a magic opens as one tree whose spans lie in its
buffers. Every call is answered, and a file reads as its record's data. -/
theorem mount_sound (readers : Readers) (src : Source) (c : Cpio)
    (hmagic : newcMagic.isPrefixOf src.content ∨ crcMagic.isPrefixOf src.content)
    (hmount : mount readers src = .ok c) :
    IsTree c.nodes ∧
      (∀ (id : ℕ) n, c.nodes[id]? = some n → Stored c.buffers n.data) ∧
      (∀ t call, Reaches (fun _ : Unit => frontend) c t → frontend.Answers call t) ∧
      ∃ archives ms budget,
        Unpacks readers.dec 0 src.content 0 [] maxBootFileBytes archives ms budget ∧
        c.buffers = src.content :: ms ∧
        ∀ (id : ℕ) n, c.nodes[id]? = some n → n.kind ≠ .directory →
          ReadsRecord c archives id n := by
  obtain ⟨-, archives, ms, budget, hunpacks, hbuffers, -⟩ := (mount_eq_ok hmagic).mp hmount
  obtain ⟨label, h⟩ := represents_of_mount hmagic hmount hunpacks
  have htree := h.isTree fun p => names_of_recordFiles
  have hstored := stored_of_unpacks hunpacks hbuffers
  have hfound : ∀ a ∈ archives, ∀ r ∈ a.records, c.buffers[a.idx]? = some a.bytes ∧
      (a.entry r).data.off + (a.entry r).data.len ≤ a.bytes.length := by
    intro a ha r hr
    obtain ⟨hbytes, -, hle⟩ := hstored a ha r hr
    exact ⟨hbytes, hle⟩
  have hspans : ∀ (id : ℕ) n, c.nodes[id]? = some n → Stored c.buffers n.data := by
    intro id n hn
    rcases data_of_node h hn with hdata | ⟨a, ha, r, hr, hentry⟩
    · rw [hdata, hbuffers]
      exact ⟨src.content, rfl, Nat.zero_le _⟩
    · obtain ⟨hbytes, hle⟩ := hfound a ha r hr
      have hdata : n.data = (a.entry r).data := congrArg Entry.data hentry
      rw [hdata]
      exact ⟨a.bytes, hbytes, hle⟩
  refine ⟨htree, hspans, ?_, archives, ms, budget, hunpacks, hbuffers, ?_⟩
  · intro t call hrun
    obtain rfl := hrun.eq_start fun _ P => frontend_keeps P
    exact answers_of_sound htree hspans call
  · intro id n hn hkind
    exact readsRecord_of_node h hfound hn hkind

theorem mount_sound_oneFile : ∃ c, mount plainReaders oneFile = .ok c ∧ IsTree c.nodes := by
  obtain ⟨c, hmount⟩ := mount_oneFile
  exact ⟨c, hmount, (mount_sound plainReaders oneFile c (by decide +kernel) hmount).1⟩

end Lamfold.Cpio
