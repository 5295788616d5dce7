import Lamfold.NodeIdentity

/-!
The node tables of the frontends. A directory is read into records, and each record is
known by a key and parsed into a node. What a listing and a lookup do with the table is
the same for all of these frontends, whether a lookup interns one record or lists all.
-/
namespace Lamfold

open Effects

/-- How a frontend keeps its nodes: where the table is in its state, the records of a
directory, the key of each and the node it stands for. -/
structure NodeTable (σ υ κ ν α : Type) where
  vol : σ → υ
  table : σ → InternTable κ ν
  put : InternTable κ ν → σ → σ
  records : υ → ν → Outcome (List (Str × α))
  key : α → κ
  parse : υ → α → Outcome ν
  kind : ν → FileKind
  vol_put : ∀ t s, vol (put t s) = vol s
  table_put : ∀ t s, table (put t s) = t
  put_table : ∀ s, put (table s) s = s

namespace NodeTable

variable {σ υ κ ν α β ι : Type} (N : NodeTable σ υ κ ν α)

/-- The names in a directory, each with the key of its record. -/
def keyed (vol : υ) (inode : ν) : Outcome (List (Str × κ)) :=
  do return (← N.records vol inode).map (Prod.map id N.key)

/-- The records of `dir`. -/
def listed (dir : NodeId) : Method σ (List (Str × α)) := do
  let s ← get
  let inode ← (N.table s).inode dir
  N.records (N.vol s) inode

theorem repeats_inode {vol : σ → υ} {table : σ → InternTable κ ν} {node : NodeId} {s : σ}
    {inode : ν} (h : (table s).inode node = .ok inode) :
    Repeats (Follows vol table) (do (table (← get)).inode node : Method σ ν) s := by
  apply Repeats.reading Follows.refl (r := .ok inode)
  intro u hu
  rw [exec_reading, hu.grown.inode h]

theorem repeats_vol {vol : σ → υ} {table : σ → InternTable κ ν} (f : υ → Method σ β) {s : σ}
    (h : Repeats (Follows vol table) (f (vol s)) s) :
    Repeats (Follows vol table) (do f (vol (← get))) s := by
  refine Repeats.get_bind ?_ h Follows.trans
  intro u hu
  rw [hu.vol_eq]

theorem exec_listed (dir : NodeId) (s : σ) :
    exec (N.listed dir) s = ((N.table s).inode dir >>= N.records (N.vol s), s) := by
  unfold listed
  rw [exec_bind, exec_get]
  dsimp only
  rw [exec_bind, exec_lift]
  cases (N.table s).inode dir with
  | error e => rfl
  | ok inode => rfl

/-- A node that was handed out has the same records in the states that follow. -/
theorem records_follows {dir : NodeId} {s t : σ} {inode : ν} (h : (N.table s).inode dir = .ok inode)
    (hfollows : Follows N.vol N.table s t) :
    (N.table s).inode dir >>= N.records (N.vol s) =
      (N.table t).inode dir >>= N.records (N.vol t) := by
  rw [hfollows.grown.inode h, hfollows.vol_eq, h]

theorem repeats_listed {dir : NodeId} {s : σ} {inode : ν} (h : (N.table s).inode dir = .ok inode) :
    Repeats (Follows N.vol N.table) (N.listed dir) s := by
  apply Repeats.reading Follows.refl (r := N.records (N.vol s) inode)
  intro u hu
  rw [exec_listed, ← N.records_follows h hu, h]
  rfl

/-- `x` on the table in the state. -/
def onTable (x : Method (InternTable κ ν) β) : Method σ β := zoom N.table N.put x

theorem repeats_onTable {x : Method (InternTable κ ν) β} {s : σ}
    (hx : Repeats InternTable.Grown x (N.table s)) :
    Repeats (Follows N.vol N.table) (N.onTable x) s := by
  obtain ⟨hgrown, hagain⟩ := hx
  unfold Repeats onTable
  rw [exec_zoom]
  refine ⟨⟨N.vol_put _ _, ?_⟩, ?_⟩
  · rw [N.table_put]
    exact hgrown
  · intro u hu
    have hfollows := hu.grown
    rw [N.table_put] at hfollows
    rw [exec_zoom, hagain _ hfollows, N.put_table]

/-- What only adds to the table keeps to the states that follow. -/
theorem onTable_follows {x : Method (InternTable κ ν) β} (start : σ)
    (hx : ∀ t : InternTable κ ν, t.Grown (exec x t).2) :
    Preserves (Follows N.vol N.table start) (N.onTable x) := by
  intro s hs
  unfold onTable
  rw [exec_zoom]
  refine hs.trans ⟨N.vol_put _ _, ?_⟩
  rw [N.table_put]
  exact hx _

section Interning

variable [DecidableEq κ]

theorem internAll_grown (vol : υ) (records : List (Str × α)) (t : InternTable κ ν) :
    t.Grown (exec (InternTable.internAll N.key (N.parse vol) N.kind records) t).2 :=
  (InternTable.repeats_internAll records t).1

/-- A listing: all records of the directory are interned. -/
def readDir (dir : NodeId) : Method σ (List DirEntry) := do
  let found ← N.listed dir
  let s ← get
  N.onTable (InternTable.internAll N.key (N.parse (N.vol s)) N.kind found)

/-- A lookup that interns no more than the record it finds. -/
def lookupOne (dir : NodeId) (name : Str) : Method σ (Option NodeId) := do
  let found ← N.listed dir
  match found.find? fun entry => entry.1 = name with
  | none => return none
  | some (_, record) => do
    let s ← get
    let child ← N.parse (N.vol s) record
    let node ← N.onTable (InternTable.internOne (N.key record) child)
    return some node

theorem repeats_readDir {dir : NodeId} {s : σ} {inode : ν}
    (h : (N.table s).inode dir = .ok inode) :
    Repeats (Follows N.vol N.table) (N.readDir dir) s := by
  refine Repeats.bind Follows.trans (N.repeats_listed h) fun found t _ => ?_
  apply repeats_vol fun vol =>
    N.onTable (InternTable.internAll N.key (N.parse vol) N.kind found)
  exact N.repeats_onTable (InternTable.repeats_internAll found _)

theorem repeats_lookupOne {dir : NodeId} (name : Str) {s : σ} {inode : ν}
    (h : (N.table s).inode dir = .ok inode) :
    Repeats (Follows N.vol N.table) (N.lookupOne dir name) s := by
  refine Repeats.bind Follows.trans (N.repeats_listed h) fun found t _ => ?_
  split
  · exact .pure Follows.refl _
  · rename_i record _
    apply repeats_vol fun vol => do
      let child ← N.parse vol record
      let node ← N.onTable (InternTable.internOne (N.key record) child)
      return some node
    refine Repeats.bind Follows.trans (.lift Follows.refl _) fun child u _ => ?_
    refine Repeats.bind Follows.trans ?_ fun node v _ => .pure Follows.refl _
    exact N.repeats_onTable (InternTable.repeats_internOne _ _ _)

/-- The entries of a listing go by the keys of the records. -/
theorem readDir_entries {dir : NodeId} {s t : σ} {es : List DirEntry}
    (h : exec (N.readDir dir) s = (.ok es, t)) :
    ∃ inode found, (N.table s).inode dir = .ok inode ∧ N.records (N.vol s) inode = .ok found ∧
      List.Forall₂ (fun record e => e.name = record.1 ∧
        (N.key record.2, e.node) ∈ (N.table t).byKey) found es := by
  obtain ⟨found, s₁, hlisted, h⟩ := exec_bind_eq_ok.mp h
  rw [exec_listed] at hlisted
  obtain ⟨hread, rfl⟩ := Prod.mk.inj hlisted
  obtain ⟨inode, hinode, hrecords⟩ := bind_eq_ok.mp hread
  rw [exec_bind, exec_get] at h
  unfold onTable at h
  dsimp only at h
  rw [exec_zoom] at h
  obtain ⟨hok, rfl⟩ := Prod.mk.inj h
  refine ⟨inode, found, hinode, hrecords, ?_⟩
  rw [N.table_put]
  exact InternTable.internAll_entries (Prod.ext hok rfl)

end Interning

/-- `r` is what the table says of the first record of that name. -/
def Names (key : α → κ) (found : List (Str × α)) (name : Str) (table : InternTable κ ν)
    (r : Option NodeId) : Prop :=
  match found.find? fun entry => entry.1 = name with
  | none => r = none
  | some (_, record) => ∃ node, r = some node ∧ (key record, node) ∈ table.byKey

section Names

variable {key : α → κ} {found : List (Str × α)} {name : Str} {t u : InternTable κ ν}
  {r r' : Option NodeId}

theorem Names.grown (h : Names key found name t r) (hgrown : t.Grown u) :
    Names key found name u r := by
  unfold Names at h ⊢
  split
  · rename_i hnone
    rwa [hnone] at h
  · rename_i record hsome
    rw [hsome] at h
    obtain ⟨node, hr, hmem⟩ := h
    exact ⟨node, hr, hgrown.keys _ hmem⟩

theorem Names.unique (h : Names key found name t r) (h' : Names key found name t r') : r = r' := by
  unfold Names at h h'
  split at h
  · rename_i hnone
    rw [hnone] at h'
    rw [h, h']
  · rename_i record hsome
    rw [hsome] at h'
    obtain ⟨node, rfl, hmem⟩ := h
    obtain ⟨node', rfl, hmem'⟩ := h'
    rw [t.bijective.node_unique hmem hmem']

theorem Names.mem {node : NodeId} (h : Names key found name t (some node)) :
    ∃ k, (k, node) ∈ t.byKey := by
  unfold Names at h
  split at h
  · cases h
  · obtain ⟨found, hfound, hmem⟩ := h
    obtain rfl := Option.some.inj hfound
    exact ⟨_, hmem⟩

/-- The first entry of a name belongs to the first record of that name. -/
theorem names_entryNamed {es : List DirEntry}
    (h : List.Forall₂ (fun record e => e.name = record.1 ∧ (key record.2, e.node) ∈ t.byKey)
      found es) : Names key found name t (entryNamed es name) := by
  unfold Names entryNamed
  induction h with
  | nil => rfl
  | @cons record e found es hfirst _ ih =>
    obtain ⟨hname, hmem⟩ := hfirst
    rw [List.find?_cons, List.find?_cons, hname]
    by_cases hthis : record.1 = name
    · simp only [hthis, decide_true]
      exact ⟨e.node, rfl, hmem⟩
    · simp only [hthis, decide_false]
      exact ih

end Names

section Lookups

variable [DecidableEq κ] {fs : ι → FoldFrontend σ} {dir : NodeId} {name : Str}

/-- A lookup that lists the directory. -/
def lookupAll (dir : NodeId) (name : Str) : Method σ (Option NodeId) := do
  let entries ← N.readDir dir
  return entryNamed entries name

theorem exec_lookupAll (dir : NodeId) (name : Str) (s : σ) :
    exec (N.lookupAll dir name) s =
      ((exec (N.readDir dir) s).1.map fun es => entryNamed es name, (exec (N.readDir dir) s).2) := by
  unfold lookupAll
  rw [exec_bind]
  rcases exec (N.readDir dir) s with ⟨e | es, t⟩
  · rfl
  · rfl

theorem repeats_lookupAll {s : σ} {inode : ν} (h : (N.table s).inode dir = .ok inode) :
    Repeats (Follows N.vol N.table) (N.lookupAll dir name) s :=
  Repeats.bind Follows.trans (N.repeats_readDir h) fun _ _ _ => .pure Follows.refl _

theorem lookupAll_mem {s t : σ} {node : NodeId}
    (h : exec (N.lookupAll dir name) s = (.ok (some node), t)) :
    ∃ key, (key, node) ∈ (N.table t).byKey := by
  obtain ⟨es, u, hread, h⟩ := exec_bind_eq_ok.mp h
  obtain ⟨inode, found, -, -, hall⟩ := N.readDir_entries hread
  obtain ⟨hnode, rfl⟩ := Prod.mk.inj h
  have hnames : Names N.key found name (N.table u) (entryNamed es name) := names_entryNamed hall
  rw [Except.ok.inj hnode] at hnames
  exact hnames.mem

theorem exec_readDir (dir : NodeId) (s : σ) :
    exec (N.readDir dir) s = match (N.table s).inode dir >>= N.records (N.vol s) with
      | .error e => (.error e, s)
      | .ok found => exec (N.onTable
          (InternTable.internAll N.key (N.parse (N.vol s)) N.kind found)) s := by
  unfold readDir
  rw [exec_bind, exec_listed]
  cases (N.table s).inode dir >>= N.records (N.vol s) with
  | error e => rfl
  | ok found => rfl

theorem exec_lookupOne (dir : NodeId) (name : Str) (s : σ) :
    exec (N.lookupOne dir name) s = match (N.table s).inode dir >>= N.records (N.vol s) with
      | .error e => (.error e, s)
      | .ok found => match found.find? fun entry => entry.1 = name with
        | none => (.ok none, s)
        | some (_, record) => match N.parse (N.vol s) record with
          | .error e => (.error e, s)
          | .ok child =>
            (.ok (some ((N.table s).intern (N.key record) child).1),
              N.put ((N.table s).intern (N.key record) child).2 s) := by
  unfold lookupOne
  rw [exec_bind, exec_listed]
  cases (N.table s).inode dir >>= N.records (N.vol s) with
  | error e => rfl
  | ok found =>
    dsimp only
    cases found.find? fun entry => entry.1 = name with
    | none => rfl
    | some entry =>
      dsimp only
      rw [exec_bind, exec_get]
      dsimp only
      rw [exec_bind, exec_lift]
      cases N.parse (N.vol s) entry.2 with
      | error e => rfl
      | ok child => rfl

/-- When every record parses, a lookup and a listing fail alike, and otherwise answer
by the keys of one list of records. -/
theorem lookupOne_names (name : Str)
    (hparse : ∀ vol record, ∃ child, N.parse vol record = .ok child) {s : σ}
    {found : List (Str × α)} (hfound : (N.table s).inode dir >>= N.records (N.vol s) = .ok found) :
    ∃ r, (exec (N.lookupOne dir name) s).1 = .ok r ∧
      Names N.key found name (N.table (exec (N.lookupOne dir name) s).2) r := by
  rw [exec_lookupOne, hfound]
  unfold Names
  dsimp only
  cases found.find? fun entry => entry.1 = name with
  | none => exact ⟨none, rfl, rfl⟩
  | some entry =>
    obtain ⟨child, hchild⟩ := hparse (N.vol s) entry.2
    dsimp only
    rw [hchild]
    dsimp only
    rw [N.table_put]
    exact ⟨_, rfl, _, rfl, (N.table s).mem_intern _ _⟩

theorem readDir_names (name : Str)
    (hparse : ∀ vol record, ∃ child, N.parse vol record = .ok child) {s : σ}
    {found : List (Str × α)} (hfound : (N.table s).inode dir >>= N.records (N.vol s) = .ok found) :
    ∃ es, (exec (N.readDir dir) s).1 = .ok es ∧
      Names N.key found name (N.table (exec (N.readDir dir) s).2) (entryNamed es name) := by
  rcases hrun : exec (N.readDir dir) s with ⟨e | es, t⟩
  · rw [exec_readDir, hfound] at hrun
    obtain ⟨es, hes⟩ := InternTable.internAll_ok N.key N.kind (hparse (N.vol s)) found (N.table s)
    have hfailed := congrArg Prod.fst hrun
    cases hes.symm.trans hfailed
  · obtain ⟨inode, found', hinode, hrecords, hall⟩ := N.readDir_entries hrun
    rw [hinode] at hfound
    obtain rfl := Except.ok.inj (hrecords.symm.trans hfound)
    exact ⟨es, rfl, names_entryNamed hall⟩

/-- A lookup and a listing of the same records agree when one table grows from both. -/
theorem lookupOne_eq_readDir (hparse : ∀ vol record, ∃ child, N.parse vol record = .ok child)
    {s t : σ} {T : InternTable κ ν}
    (hsame : (N.table s).inode dir >>= N.records (N.vol s) =
      (N.table t).inode dir >>= N.records (N.vol t))
    (hs : (N.table (exec (N.lookupOne dir name) s).2).Grown T)
    (ht : (N.table (exec (N.readDir dir) t).2).Grown T) :
    (exec (N.lookupOne dir name) s).1 =
      (exec (N.readDir dir) t).1.map fun es => entryNamed es name := by
  cases hrecords : (N.table t).inode dir >>= N.records (N.vol t) with
  | error e =>
    rw [exec_lookupOne, exec_readDir, hsame, hrecords]
    rfl
  | ok found =>
    obtain ⟨r, hr, hlookup⟩ := N.lookupOne_names name hparse (hsame.trans hrecords)
    obtain ⟨es, hes, hlisting⟩ := N.readDir_names name hparse hrecords
    rw [hr, hes, (hlookup.grown hs).unique (hlisting.grown ht)]
    rfl

end Lookups

section Frontends

variable [DecidableEq κ] {fs : ι → FoldFrontend σ}

/-- A frontend that lists by `N` and, on nodes that were handed out, reads only what stays
the same. -/
structure Lists (fs : ι → FoldFrontend σ) : Prop where
  follows : ∀ i s, (fs i).Keeps (Follows N.vol N.table s)
  readDir : ∀ i dir, (fs i).readDir dir = N.readDir dir
  metadata : ∀ {i node s inode}, (N.table s).inode node = .ok inode →
    Repeats (Follows N.vol N.table) ((fs i).metadata node) s
  readAt : ∀ {i node s inode} off buf, (N.table s).inode node = .ok inode →
    Repeats (Follows N.vol N.table) ((fs i).readAt node off buf) s
  readLink : ∀ {i node s inode}, (N.table s).inode node = .ok inode →
    Repeats (Follows N.vol N.table) ((fs i).readLink node) s

variable {N}

theorem Lists.entries (h : N.Lists fs) {i : ι} {dir : NodeId} {s t : σ} {es : List DirEntry}
    (hread : exec ((fs i).readDir dir) s = (.ok es, t)) :
    ∃ inode listed, (N.table s).inode dir = .ok inode ∧ N.keyed (N.vol s) inode = .ok listed ∧
      List.Forall₂ (fun r e => e.name = r.1 ∧ (r.2, e.node) ∈ (N.table t).byKey) listed es := by
  rw [h.readDir] at hread
  obtain ⟨inode, found, hinode, hrecords, hall⟩ := N.readDir_entries hread
  refine ⟨inode, found.map (Prod.map id N.key), hinode, ?_, List.forall₂_map_left_iff.mpr hall⟩
  unfold keyed
  rw [hrecords]
  rfl

/-- Lookups may list the directory. -/
theorem Lists.interning_all (h : N.Lists fs)
    (hlookup : ∀ i dir name, (fs i).lookup dir name = N.lookupAll dir name) :
    Interning fs N.vol N.table N.keyed where
  follows := h.follows
  readDir := by
    intro i dir s inode hinode
    rw [h.readDir]
    exact N.repeats_readDir hinode
  lookup := by
    intro i dir s inode name hinode
    rw [hlookup]
    exact N.repeats_lookupAll hinode
  metadata := h.metadata
  readAt := h.readAt
  readLink := h.readLink
  entries := h.entries
  found := by
    intro i dir name s t node hfound
    rw [hlookup] at hfound
    exact N.lookupAll_mem hfound
  readDir_lookup := by
    intro i j dir name s t inode hinode hfollows
    rw [h.readDir] at hfollows ⊢
    rw [hlookup, exec_lookupAll, (N.repeats_readDir hinode).2 t hfollows]
  lookup_readDir := by
    intro i j dir name s t inode hinode hfollows
    rw [hlookup, exec_lookupAll] at hfollows ⊢
    rw [h.readDir, (N.repeats_readDir hinode).2 t hfollows]

/-- Or they may intern no more than they find, when every record parses. -/
theorem Lists.interning_one (h : N.Lists fs)
    (hlookup : ∀ i dir name, (fs i).lookup dir name = N.lookupOne dir name)
    (hparse : ∀ vol record, ∃ child, N.parse vol record = .ok child) :
    Interning fs N.vol N.table N.keyed where
  follows := h.follows
  readDir := by
    intro i dir s inode hinode
    rw [h.readDir]
    exact N.repeats_readDir hinode
  lookup := by
    intro i dir s inode name hinode
    rw [hlookup]
    exact N.repeats_lookupOne name hinode
  metadata := h.metadata
  readAt := h.readAt
  readLink := h.readLink
  entries := h.entries
  found := by
    intro i dir name s t node hfound
    rw [hlookup] at hfound
    have hrun := N.exec_lookupOne dir name s
    rw [hfound] at hrun
    cases hrecords : (N.table s).inode dir >>= N.records (N.vol s) with
    | error e =>
      rw [hrecords] at hrun
      cases hrun
    | ok records =>
      obtain ⟨r, hr, hnames⟩ := N.lookupOne_names name hparse hrecords
      rw [hfound] at hr hnames
      obtain rfl := Except.ok.inj hr
      exact hnames.mem
  readDir_lookup := by
    intro i j dir name s t inode hinode hfollows
    rw [h.readDir] at hfollows ⊢
    rw [hlookup]
    have hsame : Follows N.vol N.table s t := (N.repeats_readDir hinode).1.trans hfollows
    apply N.lookupOne_eq_readDir hparse (N.records_follows hinode hsame).symm (.refl _)
    have hlookup := N.repeats_lookupOne name (hsame.grown.inode hinode)
    exact hfollows.grown.trans hlookup.1.grown
  lookup_readDir := by
    intro i j dir name s t inode hinode hfollows
    rw [hlookup] at hfollows ⊢
    rw [h.readDir]
    have hsame : Follows N.vol N.table s t := (N.repeats_lookupOne name hinode).1.trans hfollows
    refine N.lookupOne_eq_readDir hparse (N.records_follows hinode hsame) ?_ (.refl _)
    have hlisting := N.repeats_readDir (hsame.grown.inode hinode)
    exact hfollows.grown.trans hlisting.1.grown

end Frontends

end NodeTable

end Lamfold
