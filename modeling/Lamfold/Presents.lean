import Lamfold.Codec
import Lamfold.Fields
import Lamfold.FileGraph
import Lamfold.PathReading
import Lamfold.PathResolution
import Mathlib.Data.List.Forall2

/-!
Frontends that present a graph of files. Each method answers for a node as the graph says of
the file that the node stands for; which node that is may depend on what was asked before.
Whatever was called before, a path then leads where it leads in the graph, and what is read
there is what the graph has.
-/
namespace Lamfold

open Effects Bytes Utf8 FileGraph

/-- Files whose names and data are bytes. -/
abbrev FileGraph.Files (ι : Type) := Graph Str (List UInt8) ι

namespace Path

/-- A name is any but `..`. A target is a path, from the root when it starts with a slash. -/
def rules : Rules Str (List UInt8) where
  allowed name := name ≠ dotDot
  target bytes :=
    if isUtf8 bytes then some (bytes.head? = some slash, components bytes) else none

end Path

def FileGraph.Files.kind {ι : Type} (g : Files ι) (i : ι) : FileKind :=
  match g.item i with
  | .dir _ => .directory
  | .file _ => .regular
  | .link _ => .symlink
  | .special => .other

/-- The kind of a file, and the size of one that has data. -/
structure Describes {ι : Type} (g : Files ι) (i : ι) (md : Metadata) : Prop where
  kind : md.kind = g.kind i
  size : ∀ data, g.item i = .file data → md.size = data.length

section Serving

variable {σ ι : Type}

/-- The invariant holds in a later state, where the nodes are the files they were. -/
structure Later (I : σ → Prop) (At : σ → NodeId → ι → Prop) (s t : σ) : Prop where
  inv : I t
  at_of : ∀ {node i}, At s node i → At t node i

theorem Later.trans {I : σ → Prop} {At : σ → NodeId → ι → Prop} {s t u : σ}
    (hst : Later I At s t) (htu : Later I At t u) : Later I At s u where
  inv := htu.inv
  at_of h := htu.at_of (hst.at_of h)

/-- A buffer in memory has fewer bytes than this. -/
def bufferBound : ℕ := 2 ^ 63

/-- The bytes of a window, and the buffer it is read into. -/
def windowOf (data : List UInt8) (off : ℕ) (buf : List UInt8) : ℕ × List UInt8 :=
  let window := (data.drop off).take buf.length
  (window.length, overwrite buf 0 window)

/-- The first `n` bytes of a window are all of it when the data or the buffer ends there. -/
theorem windowOf_eq {data : List UInt8} {off n : ℕ} {buf : List UInt8}
    (hn : n = min buf.length (data.length - off)) :
    windowOf data off buf = (n, overwrite buf 0 ((data.drop off).take n)) := by
  have hlen : (data.drop off).length = data.length - off := List.length_drop
  have htake : (data.drop off).take buf.length = (data.drop off).take n := by
    rw [hn, ← hlen, ← List.take_take, List.take_length]
  unfold windowOf
  rw [htake]
  dsimp only
  rw [List.length_take, hlen, hn, Nat.min_eq_left (Nat.min_le_right _ _)]

theorem windowOf_past {data : List UInt8} {off : ℕ} (h : data.length ≤ off) (buf : List UInt8) :
    windowOf data off buf = (0, buf) := by
  unfold windowOf
  rw [List.drop_of_length_le h, List.take_nil]
  dsimp only
  rw [List.length_nil, overwrite_nil]

theorem Source.readAt_part {src : Source} {at_ : ℕ} {data : List UInt8}
    (h : slice src.content at_ data.length = some data) {off n : ℕ} (hle : off + n ≤ data.length) :
    src.readAt (at_ + off) n = .ok ((data.drop off).take n) := by
  obtain ⟨hin, hdata⟩ := slice_eq_some.mp h
  refine Source.readAt_eq_ok.mpr (slice_eq_some.mpr ⟨by omega, ?_⟩)
  have hpart := congrArg (fun bytes => (bytes.drop off).take n) hdata
  rwa [List.drop_take, List.drop_drop, List.take_take, Nat.min_eq_left (by omega)] at hpart

/-- A field of a record is read behind those before it. -/
theorem leAt_encodeFields {fields : List (ℕ × ℕ)} {k width n o : ℕ} {what : String}
    {bytes : List UInt8} (hbytes : encodeFields fields <+: bytes)
    (hk : fields[k]? = some (width, n)) (hn : n < 256 ^ width)
    (ho : fieldsWidth (fields.take k) = o) : leAt width what bytes o = .ok n := by
  obtain ⟨post, rfl⟩ := hbytes
  subst ho
  unfold leAt
  rw [slice_encodeFields hk, okOr, ok_bind, leNat_leBytes hn]
  rfl

theorem byte_encodeFields {fields : List (ℕ × ℕ)} {k o : ℕ} {b : UInt8} {bytes : List UInt8}
    (hbytes : encodeFields fields <+: bytes) (hk : fields[k]? = some (1, b.toNat))
    (ho : fieldsWidth (fields.take k) = o) : bytes[o]? = some b := by
  obtain ⟨post, rfl⟩ := hbytes
  have hbyte := slice_getElem? (slice_encodeFields hk post) Nat.one_pos
  rwa [ho, leBytes, List.getElem?_cons_zero, UInt8.ofNat_toNat, Nat.add_zero, eq_comm] at hbyte

theorem leAt_words {fields : List (ℕ × ℕ)} {ns : List ℕ} {i width n o : ℕ} {what : String}
    {bytes : List UInt8} (hbytes : encodeFields (fields ++ words width ns) <+: bytes)
    (hi : ns[i]? = some n) (hn : n < 256 ^ width) (ho : fieldsWidth fields = o) :
    leAt width what bytes (o + i * width) = .ok n := by
  obtain ⟨hlt, -⟩ := List.getElem?_eq_some_iff.mp hi
  refine leAt_encodeFields (k := fields.length + i) hbytes ?_ hn ?_
  · rw [List.getElem?_append_right (Nat.le_add_right _ _), Nat.add_sub_cancel_left, words,
      List.getElem?_map, hi]
    rfl
  · rw [List.take_length_add_append, fieldsWidth_append, ho, words, ← List.map_take]
    rw [← words, fieldsWidth_words, List.length_take, Nat.min_eq_left (Nat.le_of_lt hlt)]

/-- An entry of a listing has the name and the kind of an entry of the graph, and a node that
is its file. -/
structure ListsEntry (g : Files ι) (at_ : NodeId → ι → Prop) (entry : Str × ι) (e : DirEntry) :
    Prop where
  name : e.name = entry.1
  node : at_ e.node entry.2
  kind : e.kind = g.kind entry.2

theorem ListsEntry.entryNamed {g : Files ι} {at_ : NodeId → ι → Prop} {i : ι}
    {entries : List (Str × ι)} {es : List DirEntry} (h : List.Forall₂ (ListsEntry g at_) entries es)
    (hitem : g.item i = .dir entries) (name : Str) :
    Option.Rel at_ (entryNamed es name) (g.child i name) := by
  rw [Graph.child_of_dir hitem]
  unfold Lamfold.entryNamed
  clear hitem
  induction h with
  | nil => exact .none
  | @cons entry e entries es hfirst _ ih =>
    rw [List.find?_cons, List.find?_cons, hfirst.name]
    by_cases hthis : entry.1 = name
    · simp only [hthis, decide_true]
      exact .some hfirst.node
    · simp only [hthis, decide_false]
      exact ih

/-- In the states of `I` the frontend answers as the graph does; `At s node i` says that `node`
stands for the file `i` in the state `s`. -/
structure Serves (fs : FoldFrontend σ) (g : Files ι) (I : σ → Prop) (At : σ → NodeId → ι → Prop) :
    Prop where
  later : ∀ c {s}, I s → Later I At s (fs.after c s)
  root : ∀ {s}, I s → At s (fs.root s) g.root
  metadata : ∀ {s node i}, I s → At s node i →
    ∃ md, (exec (fs.metadata node) s).1 = .ok md ∧ Describes g i md
  lookup : ∀ {s node i} name, I s → At s node i → g.kind i = .directory →
    ∃ r, (exec (fs.lookup node name) s).1 = .ok r ∧
      Option.Rel (At (exec (fs.lookup node name) s).2) r (g.child i name)
  lookup_other : ∀ {s node i} name child, I s → At s node i → g.kind i ≠ .directory →
    (exec (fs.lookup node name) s).1 ≠ .ok (some child)
  readDir : ∀ {s node i entries}, I s → At s node i → g.item i = .dir entries →
    ∃ es, (exec (fs.readDir node) s).1 = .ok es ∧
      List.Forall₂ (ListsEntry g (At (exec (fs.readDir node) s).2)) entries es
  readAt : ∀ {s node i data} off buf, I s → At s node i → g.item i = .file data →
    buf.length < bufferBound → (exec (fs.readAt node off buf) s).1 = .ok (windowOf data off buf)
  readLink : ∀ {s node i target}, I s → At s node i → g.item i = .link target →
    (exec (fs.readLink node) s).1 = .ok (some target)

theorem FileGraph.Files.kind_symlink {g : Files ι} {i : ι} :
    g.kind i = .symlink ↔ g.IsLink i := by
  unfold Files.kind Graph.IsLink
  cases g.item i <;> simp

theorem FileGraph.Files.kind_directory {g : Files ι} {i : ι} :
    g.kind i = .directory ↔ ∃ entries, g.item i = .dir entries := by
  unfold Files.kind
  cases g.item i <;> simp

theorem FileGraph.Files.kind_of_child {g : Files ι} {i j : ι} {name : Str}
    (h : g.child i name = some j) : g.kind i = .directory := by
  unfold Graph.child at h
  split at h
  · exact Files.kind_directory.mpr ⟨_, ‹_›⟩
  · cases h

/-- The path leads to the file in the graph, within the bound on links. -/
def FileGraph.Files.Reached (g : Files ι) (path : Str) (k : ι) : Prop :=
  ∃ n ≤ Path.maxSymlinks, g.Leads Path.rules g.root (Path.components path) k n

namespace Serves

variable {fs : FoldFrontend σ} {g : Files ι} {I : σ → Prop} {At : σ → NodeId → ι → Prop}
  {s t : σ} {node child m : NodeId} {i j k : ι} {comp : Str} {comps : List Str} {links l n : ℕ}

theorem later_of (h : Serves fs g I At) (hs : I s) (c : Call) (ht : fs.after c s = t) :
    Later I At s t := ht ▸ h.later c hs

theorem reaches (h : Serves fs g I At) (hs : I s) (hrun : Reaches (fun _ : Unit => fs) s t) :
    Later I At s t := by
  induction hrun with
  | refl => exact ⟨hs, fun h => h⟩
  | call i c _ ih => exact ih.trans (h.later c ih.inv)

theorem lookupChild_ok (h : Serves fs g I At) (hs : I s) (hat : At s node i)
    (hrun : exec (Path.lookupChild fs node comp) s = (.ok child, t)) :
    Path.rules.allowed comp ∧ ∃ j, g.child i comp = some j ∧ At t child j ∧ Later I At s t := by
  unfold Path.lookupChild at hrun
  split at hrun
  · cases hrun
  · rename_i hcomp
    obtain ⟨found, u, hlookup, hrun⟩ := exec_bind_eq_ok.mp hrun
    have hlater := h.later_of hs (.lookup node comp) (congrArg Prod.snd hlookup)
    rw [exec_lift] at hrun
    obtain ⟨hfound, rfl⟩ := Prod.mk.inj hrun
    obtain rfl := okOr_eq_ok.mp hfound
    have hdir : g.kind i = .directory := by
      by_contra hother
      exact h.lookup_other comp child hs hat hother (congrArg Prod.fst hlookup)
    obtain ⟨r, hr, hrel⟩ := h.lookup comp hs hat hdir
    rw [hlookup] at hr hrel
    obtain rfl := Except.ok.inj hr
    refine ⟨hcomp, ?_⟩
    generalize g.child i comp = entry at hrel
    cases hrel with
    | some hchild => exact ⟨_, rfl, hchild, hlater⟩

theorem exec_lookupChild (h : Serves fs g I At) (hs : I s) (hat : At s node i)
    (hallowed : Path.rules.allowed comp) (hchild : g.child i comp = some j) :
    ∃ child t, exec (Path.lookupChild fs node comp) s = (.ok child, t) ∧ At t child j ∧
      Later I At s t := by
  obtain ⟨r, hr, hrel⟩ := h.lookup comp hs hat (Files.kind_of_child hchild)
  rw [hchild] at hrel
  cases hrel with
  | @some child _ hj =>
    refine ⟨child, _, ?_, hj, h.later_of hs (.lookup node comp) rfl⟩
    unfold Path.lookupChild
    rw [if_neg hallowed]
    exact exec_bind_of_ok (Prod.ext hr rfl)

theorem exec_metadata (h : Serves fs g I At) (hs : I s) (hat : At s node i) :
    ∃ md t, exec (fs.metadata node) s = (.ok md, t) ∧ Describes g i md ∧ Later I At s t := by
  obtain ⟨md, hmd, hdesc⟩ := h.metadata hs hat
  exact ⟨md, _, Prod.ext hmd rfl, hdesc, h.later_of hs (.metadata node) rfl⟩

theorem exec_linkTarget (h : Serves fs g I At) (hs : I s) (hat : At s node i)
    {target : List UInt8} (hitem : g.item i = .link target) :
    ∃ t, exec (Path.linkTarget fs node) s =
      (okOr (fromUtf8 target) (.invalidPath "non-UTF-8 symlink"), t) ∧ Later I At s t := by
  refine ⟨_, ?_, h.later_of hs (.readLink node) rfl⟩
  have hread := h.readLink hs hat hitem
  unfold Path.linkTarget
  rw [exec_bind_of_ok (Prod.ext hread rfl)]
  rfl

theorem exec_linkBase (h : Serves fs g I At) (hs : I s) (hat : At s node i) (target : Str) :
    ∃ base, exec (Path.linkBase fs node target) s = (.ok base, s) ∧
      At s base (g.base i (target.head? = some Path.slash)) := by
  unfold Path.linkBase Graph.base
  by_cases habs : target.head? = some Path.slash
  · refine ⟨fs.root s, ?_, ?_⟩
    · rw [if_pos habs]
      rfl
    · rw [if_pos (decide_eq_true habs)]
      exact h.root hs
  · refine ⟨node, ?_, ?_⟩
    · rw [if_neg habs]
      rfl
    · rw [if_neg (by simpa using habs)]
      exact hat

/-- Where the loop ends, the names lead in the graph. -/
theorem resolveLoop_ok (h : Serves fs g I At) (hs : I s) (hat : At s node i)
    (hlinks : links ≤ Path.maxSymlinks)
    (hrun : exec (Path.resolveLoop fs node comps links) s = (.ok (m, l), t)) :
    ∃ k n, g.Leads Path.rules i comps k n ∧ l = links + n ∧ l ≤ Path.maxSymlinks ∧ At t m k ∧
      Later I At s t := by
  fun_induction Path.resolveLoop fs node comps links generalizing s i with
  | case1 node links =>
    cases hrun
    exact ⟨i, 0, .here i, rfl, hlinks, hat, hs, fun h => h⟩
  | case2 node links comp pending ihLink ihChild =>
    obtain ⟨child, u, hchild, hrun⟩ := exec_bind_eq_ok.mp hrun
    obtain ⟨hallowed, j, hj, hatu, hsu⟩ := h.lookupChild_ok hs hat hchild
    obtain ⟨md, v, hmd, hdesc, huv⟩ := h.exec_metadata hsu.inv hatu
    rw [exec_bind_of_ok hmd] at hrun
    have hsv := hsu.trans huv
    by_cases hkind : md.kind = .symlink
    · rw [if_pos hkind] at hrun
      split at hrun
      · cases hrun
      rename_i hmax
      obtain ⟨target, hitem⟩ := Files.kind_symlink.mp (hdesc.kind.symm.trans hkind)
      obtain ⟨w, htarget, hvw⟩ := h.exec_linkTarget hsv.inv (huv.at_of hatu) hitem
      have hsw := hsv.trans hvw
      obtain ⟨str, w', hstr, hrun⟩ := exec_bind_eq_ok.mp hrun
      rw [htarget] at hstr
      obtain ⟨hok, rfl⟩ := Prod.mk.inj hstr
      obtain ⟨hutf8, rfl⟩ := fromUtf8_eq_some.mp (okOr_eq_ok.mp hok)
      obtain ⟨base, hbase, hatBase⟩ := h.exec_linkBase hsw.inv (hsw.at_of hat) target
      rw [exec_bind_of_ok hbase] at hrun
      obtain ⟨k, n, hleads, hl, hle, hatk, hwt⟩ :=
        ihLink hmax target base hsw.inv hatBase (by omega) hrun
      obtain ⟨mid, n₁, n₂, hup, hlow, rfl⟩ := hleads.split
      have hrule : Path.rules.target target =
          some (decide (target.head? = some Path.slash), Path.components target) := if_pos hutf8
      exact ⟨k, n₁ + n₂ + 1, .link hallowed hj hitem hrule hup hlow, by omega, hle, hatk,
        hsw.trans hwt⟩
    · rw [if_neg hkind] at hrun
      obtain ⟨k, n, hleads, hl, hle, hatk, hvt⟩ :=
        ihChild child hsv.inv (huv.at_of hatu) hlinks hrun
      refine ⟨k, n, .entry hallowed hj ?_ hleads, hl, hle, hatk, hsv.trans hvt⟩
      rw [← Files.kind_symlink, ← hdesc.kind]
      exact hkind

/-- Where the names lead in the graph, within the bound on links, the loop ends. -/
theorem exec_resolveLoop (h : Serves fs g I At) (hleads : g.Leads Path.rules i comps k n)
    (hs : I s) (hat : At s node i) (hlinks : links + n ≤ Path.maxSymlinks) :
    ∃ m t, exec (Path.resolveLoop fs node comps links) s = (.ok (m, links + n), t) ∧ At t m k ∧
      Later I At s t := by
  induction hleads generalizing s node links with
  | here i =>
    refine ⟨node, s, ?_, hat, hs, fun h => h⟩
    rw [Path.resolveLoop_nil]
    rfl
  | @entry i j k name rest n hallowed hchild hlink hrest ih =>
    obtain ⟨child, u, hlookup, hatu, hsu⟩ := h.exec_lookupChild hs hat hallowed hchild
    obtain ⟨md, v, hmd, hdesc, huv⟩ := h.exec_metadata hsu.inv hatu
    have hkind : md.kind ≠ .symlink := by
      rw [hdesc.kind, Ne, Files.kind_symlink]
      exact hlink
    obtain ⟨m, t, hrun, hatm, hvt⟩ := ih (hsu.trans huv).inv (huv.at_of hatu) hlinks
    refine ⟨m, t, ?_, hatm, (hsu.trans huv).trans hvt⟩
    rw [Path.resolveLoop_cons, exec_bind_of_ok hlookup, exec_bind_of_ok hmd, if_neg hkind, hrun]
  | @link i j mid k name rest names target absolute n₁ n₂ hallowed hchild hitem htarget _ _
      ihBase ihRest =>
    obtain ⟨child, u, hlookup, hatu, hsu⟩ := h.exec_lookupChild hs hat hallowed hchild
    obtain ⟨md, v, hmd, hdesc, huv⟩ := h.exec_metadata hsu.inv hatu
    have hkind : md.kind = .symlink := by
      rw [hdesc.kind, Files.kind_symlink]
      exact ⟨target, hitem⟩
    have hsv := hsu.trans huv
    obtain ⟨w, hread, hvw⟩ := h.exec_linkTarget hsv.inv (huv.at_of hatu) hitem
    have hsw := hsv.trans hvw
    unfold Path.rules at htarget
    dsimp only at htarget
    split at htarget
    · rename_i hutf8
      obtain ⟨rfl, rfl⟩ := Prod.mk.inj (Option.some.inj htarget)
      have hstr : okOr (fromUtf8 target) (.invalidPath "non-UTF-8 symlink") = .ok target :=
        okOr_eq_ok.mpr (fromUtf8_eq_some.mpr ⟨hutf8, rfl⟩)
      rw [hstr] at hread
      obtain ⟨base, hbase, hatBase⟩ := h.exec_linkBase hsw.inv (hsw.at_of hat) target
      have hbudget : links + 1 + n₁ ≤ Path.maxSymlinks := by omega
      have hleft : links + 1 + n₁ + n₂ ≤ Path.maxSymlinks := by omega
      obtain ⟨mid', x, hmid, hatMid, hwx⟩ := ihBase hsw.inv hatBase hbudget
      obtain ⟨m, t, hrun, hatm, hxt⟩ := ihRest hwx.inv hatMid hleft
      refine ⟨m, t, ?_, hatm, (hsw.trans hwx).trans hxt⟩
      have hmax : ¬links + 1 > Path.maxSymlinks := by omega
      have hcount : links + 1 + n₁ + n₂ = links + (n₁ + n₂ + 1) := by omega
      rw [Path.resolveLoop_cons, exec_bind_of_ok hlookup, exec_bind_of_ok hmd, if_pos hkind,
        if_neg hmax, exec_bind_of_ok hread, exec_bind_of_ok hbase, Path.pushComponents,
        Path.resolveLoop_append, exec_bind_of_ok hmid, hrun, hcount]
    · cases htarget

/-- A path leads to a node exactly where it leads to a file of the graph, which is that node. -/
theorem exec_resolve (h : Serves fs g I At) (hs : I s) {path : Str} (hk : g.Reached path k) :
    ∃ m t, exec (Path.resolve fs path) s = (.ok m, t) ∧ At t m k ∧ Later I At s t := by
  obtain ⟨n, hn, hleads⟩ := hk
  have hbudget : 0 + n ≤ Path.maxSymlinks := by omega
  obtain ⟨m, t, hrun, hatm, hst⟩ := h.exec_resolveLoop hleads hs (h.root hs) hbudget
  refine ⟨m, t, ?_, hatm, hst⟩
  unfold Path.resolve Path.resolveFrom Path.pushComponents
  rw [List.append_nil, exec_bind_of_ok (exec_get s), exec_bind_of_ok hrun]
  rfl

theorem resolve_ok (h : Serves fs g I At) (hs : I s) {path : Str}
    (hrun : exec (Path.resolve fs path) s = (.ok m, t)) : ∃ k, g.Reached path k := by
  unfold Path.resolve Path.resolveFrom Path.pushComponents at hrun
  rw [List.append_nil, exec_bind_of_ok (exec_get s)] at hrun
  obtain ⟨⟨m', l⟩, u, hloop, -⟩ := exec_bind_eq_ok.mp hrun
  obtain ⟨k, n, hleads, hl, hle, -, -⟩ := h.resolveLoop_ok hs (h.root hs) (Nat.zero_le _) hloop
  exact ⟨k, n, by omega, hleads⟩

theorem windowOf_whole (data : List UInt8) :
    windowOf data 0 (List.replicate data.length 0) = (data.length, data) := by
  unfold windowOf overwrite
  dsimp only
  rw [List.drop_zero, List.length_replicate, List.take_length, List.take_zero, List.nil_append,
    Nat.zero_add, List.drop_of_length_le (by simp), List.append_nil]

theorem exec_readLoop (h : Serves fs g I At) (hs : I s) (hat : At s node i) {data : List UInt8}
    (hitem : g.item i = .file data) (hle : data.length ≤ maxBootFileBytes) :
    (exec (Path.readLoop fs node data.length 0 (List.replicate data.length 0)) s).1 = .ok data := by
  rw [Path.readLoop]
  by_cases hempty : data = []
  · subst hempty
    rfl
  · have hpos : 0 < data.length := List.length_pos_iff.mpr hempty
    have hbound : (List.replicate data.length (0 : UInt8)).length < bufferBound := by
      rw [List.length_replicate]
      exact Nat.lt_of_le_of_lt hle (by decide)
    have hread := h.readAt 0 (List.replicate data.length 0) hs hat hitem hbound
    rw [windowOf_whole] at hread
    have hwhole : overwrite (List.replicate data.length 0) 0 data = data := by
      have hwindow := congrArg Prod.snd (windowOf_whole data)
      unfold windowOf at hwindow
      rwa [List.drop_zero, List.length_replicate, List.take_length] at hwindow
    rw [if_pos hpos, List.drop_zero, exec_bind_of_ok (Prod.ext hread rfl)]
    dsimp only
    rw [hwhole, if_neg (Nat.ne_of_gt hpos), Path.readLoop, if_neg (by omega), Nat.zero_add,
      List.take_length]
    rfl

theorem exec_readNode (h : Serves fs g I At) (hs : I s) (hat : At s node i) {data : List UInt8}
    (hitem : g.item i = .file data) :
    (exec (Path.readNode fs node) s).1 =
      if data.length ≤ maxBootFileBytes then .ok data
      else fail (.fileTooLarge data.length maxBootFileBytes) := by
  obtain ⟨md, t, hmd, hdesc, hst⟩ := h.exec_metadata hs hat
  have hkind : md.kind ≠ .directory := by
    rw [hdesc.kind, Files.kind, hitem]
    exact FileKind.noConfusion
  unfold Path.readNode
  rw [exec_bind_of_ok hmd, if_neg hkind, hdesc.size data hitem]
  by_cases hle : data.length ≤ maxBootFileBytes
  · rw [if_pos hle, checkedFullReadLen_eq_ok.mpr ⟨hle, rfl⟩]
    exact h.exec_readLoop hst.inv (hst.at_of hat) hitem hle
  · rw [if_neg hle, checkedFullReadLen, checkedLen_of_lt (by omega)]
    rfl

end Serves

/-- In every state that a run from `start` reaches, paths lead where they lead in the graph:
to the data of a file, whole and in windows that are read later, to the entries of a directory,
and nowhere else. -/
structure Presents (fs : FoldFrontend σ) (g : Files ι) (start : σ) : Prop where
  file : ∀ {s path k data}, Reaches (fun _ : Unit => fs) start s → g.Reached path k →
    g.item k = .file data → (exec (Path.readPath fs path) s).1 =
      if data.length ≤ maxBootFileBytes then .ok data
      else fail (.fileTooLarge data.length maxBootFileBytes)
  window : ∀ {s path k data}, Reaches (fun _ : Unit => fs) start s → g.Reached path k →
    g.item k = .file data → ∃ node t, exec (Path.resolve fs path) s = (.ok node, t) ∧
      ∀ u off buf, Reaches (fun _ : Unit => fs) t u → buf.length < bufferBound →
        (exec (fs.readAt node off buf) u).1 = .ok (windowOf data off buf)
  directory : ∀ {s path k entries}, Reaches (fun _ : Unit => fs) start s → g.Reached path k →
    g.item k = .dir entries → (exec (Path.readPath fs path) s).1 = fail .isDirectory ∧
      ∃ es, (exec (Path.readDirPath fs path) s).1 = .ok es ∧
        List.Forall₂ (ListsEntry g fun _ _ => True) entries es
  metadata : ∀ {s path k}, Reaches (fun _ : Unit => fs) start s → g.Reached path k →
    ∃ md, (exec (Path.metadataPath fs path) s).1 = .ok md ∧ Describes g k md
  missing : ∀ {s path}, Reaches (fun _ : Unit => fs) start s → (¬∃ k, g.Reached path k) →
    ∃ e, (exec (Path.resolve fs path) s).1 = .error e ∧
      (exec (Path.readPath fs path) s).1 = .error e ∧
      (exec (Path.readDirPath fs path) s).1 = .error e ∧
      (exec (Path.metadataPath fs path) s).1 = .error e

/-- What is served is presented. -/
theorem Serves.presents {fs : FoldFrontend σ} {g : Files ι} {I : σ → Prop}
    {At : σ → NodeId → ι → Prop} (h : Serves fs g I At) {start : σ} (hstart : I start) :
    Presents fs g start where
  file {s path k data} hrun hk hitem := by
    have hs := (h.reaches hstart hrun).inv
    obtain ⟨m, t, hresolve, hatm, hst⟩ := h.exec_resolve hs hk
    unfold Path.readPath
    rw [exec_bind_of_ok hresolve]
    exact h.exec_readNode hst.inv hatm hitem
  window {s path k data} hrun hk hitem := by
    have hs := (h.reaches hstart hrun).inv
    obtain ⟨m, t, hresolve, hatm, hst⟩ := h.exec_resolve hs hk
    refine ⟨m, t, hresolve, ?_⟩
    intro u off buf htu hbound
    have hu := h.reaches hst.inv htu
    exact h.readAt off buf hu.inv (hu.at_of hatm) hitem hbound
  directory {s path k entries} hrun hk hitem := by
    have hs := (h.reaches hstart hrun).inv
    obtain ⟨m, t, hresolve, hatm, hst⟩ := h.exec_resolve hs hk
    refine ⟨?_, ?_⟩
    · obtain ⟨md, u, hmd, hdesc, -⟩ := h.exec_metadata hst.inv hatm
      have hkind : md.kind = .directory := by
        rw [hdesc.kind, Files.kind_directory]
        exact ⟨entries, hitem⟩
      unfold Path.readPath Path.readNode
      rw [exec_bind_of_ok hresolve, exec_bind_of_ok hmd, if_pos hkind]
      rfl
    · obtain ⟨es, hes, hlist⟩ := h.readDir hst.inv hatm hitem
      refine ⟨es, ?_, hlist.imp fun entry e hentry => ⟨hentry.name, trivial, hentry.kind⟩⟩
      unfold Path.readDirPath
      rw [exec_bind_of_ok hresolve]
      exact hes
  metadata {s path k} hrun hk := by
    have hs := (h.reaches hstart hrun).inv
    obtain ⟨m, t, hresolve, hatm, hst⟩ := h.exec_resolve hs hk
    obtain ⟨md, hmd, hdesc⟩ := h.metadata hst.inv hatm
    refine ⟨md, ?_, hdesc⟩
    unfold Path.metadataPath
    rw [exec_bind_of_ok hresolve]
    exact hmd
  missing {s path} hrun hmissing := by
    have hs := (h.reaches hstart hrun).inv
    rcases hresolve : exec (Path.resolve fs path) s with ⟨e | m, t⟩
    · refine ⟨e, rfl, ?_, ?_, ?_⟩
      · exact congrArg Prod.fst (exec_bind_of_error hresolve)
      · exact congrArg Prod.fst (exec_bind_of_error hresolve)
      · exact congrArg Prod.fst (exec_bind_of_error hresolve)
    · exact absurd (h.resolve_ok hs hresolve) hmissing

end Serving

/-- The files of a small volume. -/
inductive Few
  | root
  | first
  | second

/-- The zlib stream of the letter `a`, stored. -/
def letterStream : List UInt8 := [0x78, 0x01, 0x01, 1, 0, 0xFE, 0xFF, 0x61, 0, 0x62, 0, 0x62]

/-- Decoders of which only zlib is used, and only on that stream. -/
def letterZlib : Codecs Unit where
  __ := noStreams
  inflateZlib input n := if input = letterStream then some ([0x61].take n) else none
  inflateZlib_le := by
    intro input n out h
    split at h
    · obtain rfl := Option.some.inj h
      exact List.length_take_le n _
    · cases h

end Lamfold
