import Lamfold.IsoState
import Lamfold.Probes
import Lamfold.SquashContent
import Lamfold.UdfState

/-!
Node identity over whole runs. The frontends that number their nodes hand out the
numbers in call order, from two code paths; a key has one number all the same, which
stands for one inode for ever, and what was walked once can be walked again.
-/
namespace Lamfold

open Effects

/-- The node that a call names. -/
def Call.node : Call → NodeId
  | .lookup dir _ => dir
  | .readDir dir => dir
  | .metadata node => node
  | .readAt node _ _ => node
  | .readLink node => node

section Walks

variable {σ ι κ ν : Type}

/-- The state after some calls, each in its own context. -/
def walk (fs : ι → FoldFrontend σ) : List (ι × Call) → σ → σ
  | [], s => s
  | (i, c) :: calls, s => walk fs calls ((fs i).after c s)

/-- Each call names a node that has been handed out before it. -/
def Walkable (fs : ι → FoldFrontend σ) (table : σ → InternTable κ ν) :
    List (ι × Call) → σ → Prop
  | [], _ => True
  | (i, c) :: calls, s =>
    (∃ inode, (table s).inode c.node = .ok inode) ∧ Walkable fs table calls ((fs i).after c s)

/-- Listing `dir` from `s` ends in `t`, and one of its entries is `e`, for a record
with key `key`. -/
def HasEntry (fs : FoldFrontend σ) (table : σ → InternTable κ ν)
    (records : ν → Outcome (List (Str × κ))) (dir : NodeId) (s t : σ) (key : κ) (e : DirEntry) :
    Prop :=
  ∃ inode listed es, ∃ n : ℕ, (table s).inode dir = .ok inode ∧ records inode = .ok listed ∧
    exec (fs.readDir dir) s = (.ok es, t) ∧ listed[n]? = some (e.name, key) ∧ es[n]? = some e

/-- What holds in every run from `start` of the nodes and of the numbers they have. The
records of a directory, with their keys, are given by `records`. -/
structure StableNodes (fs : ι → FoldFrontend σ) (table : σ → InternTable κ ν)
    (records : ν → Outcome (List (Str × κ))) (start : σ) : Prop where
  bijective : ∀ {s}, Reaches fs start s → (table s).Bijective
  permanent : ∀ {s t node inode}, Reaches fs start s → Reaches fs s t →
    (table s).inode node = .ok inode → (table t).inode node = .ok inode
  listed : ∀ {i s t dir key e}, Reaches fs start s →
    HasEntry (fs i) table records dir s t key e → ∃ inode, (table t).inode e.node = .ok inode
  found : ∀ {i s t dir name node}, Reaches fs start s →
    exec ((fs i).lookup dir name) s = (.ok (some node), t) →
      ∃ inode, (table t).inode node = .ok inode
  every_entry : ∀ {i s t dir es}, Reaches fs start s → exec ((fs i).readDir dir) s = (.ok es, t) →
    ∀ e ∈ es, ∃ key, HasEntry (fs i) table records dir s t key e
  same_node : ∀ {i j s t u v dir dir' key key' e e'}, Reaches fs start s →
    HasEntry (fs i) table records dir s t key e → Reaches fs start u →
      HasEntry (fs j) table records dir' u v key' e' → Reaches fs t v →
        (e.node = e'.node ↔ key = key')
  walk_again : ∀ {s t calls}, Reaches fs start s → Walkable fs table calls s →
    Reaches fs (walk fs calls s) t → walk fs calls t = t
  readDir_lookup : ∀ {i j s t dir name inode}, Reaches fs start s →
    (table s).inode dir = .ok inode → Reaches fs (exec ((fs i).readDir dir) s).2 t →
      (exec ((fs j).lookup dir name) t).1 =
        (exec ((fs i).readDir dir) s).1.map fun es => entryNamed es name
  lookup_readDir : ∀ {i j s t dir name inode}, Reaches fs start s →
    (table s).inode dir = .ok inode → Reaches fs (exec ((fs i).lookup dir name) s).2 t →
      (exec ((fs i).lookup dir name) s).1 =
        (exec ((fs j).readDir dir) t).1.map fun es => entryNamed es name

/-- The volume is the same, and the table has all that it had. -/
structure Follows {υ : Type} (vol : σ → υ) (table : σ → InternTable κ ν) (s t : σ) : Prop where
  vol_eq : vol t = vol s
  grown : (table s).Grown (table t)

variable {υ : Type} {vol : σ → υ} {table : σ → InternTable κ ν} {fs : ι → FoldFrontend σ}

theorem Follows.refl (s : σ) : Follows vol table s s := ⟨rfl, .refl _⟩

theorem Follows.trans {s t u : σ} (hst : Follows vol table s t) (htu : Follows vol table t u) :
    Follows vol table s u := ⟨htu.vol_eq.trans hst.vol_eq, hst.grown.trans htu.grown⟩

/-- What the calls of a frontend do with its table: on nodes that the table has, they can
be repeated, and listings and lookups go by the keys of the records. -/
structure Interning (fs : ι → FoldFrontend σ) (vol : σ → υ) (table : σ → InternTable κ ν)
    (records : υ → ν → Outcome (List (Str × κ))) : Prop where
  follows : ∀ i s, (fs i).Keeps (Follows vol table s)
  readDir : ∀ {i dir s inode}, (table s).inode dir = .ok inode →
    Repeats (Follows vol table) ((fs i).readDir dir) s
  lookup : ∀ {i dir s inode} name, (table s).inode dir = .ok inode →
    Repeats (Follows vol table) ((fs i).lookup dir name) s
  metadata : ∀ {i node s inode}, (table s).inode node = .ok inode →
    Repeats (Follows vol table) ((fs i).metadata node) s
  readAt : ∀ {i node s inode} off buf, (table s).inode node = .ok inode →
    Repeats (Follows vol table) ((fs i).readAt node off buf) s
  readLink : ∀ {i node s inode}, (table s).inode node = .ok inode →
    Repeats (Follows vol table) ((fs i).readLink node) s
  entries : ∀ {i dir s t es}, exec ((fs i).readDir dir) s = (.ok es, t) →
    ∃ inode listed, (table s).inode dir = .ok inode ∧ records (vol s) inode = .ok listed ∧
      List.Forall₂ (fun r e => e.name = r.1 ∧ (r.2, e.node) ∈ (table t).byKey) listed es
  found : ∀ {i dir name s t node}, exec ((fs i).lookup dir name) s = (.ok (some node), t) →
    ∃ key, (key, node) ∈ (table t).byKey
  readDir_lookup : ∀ {i j dir name s t inode}, (table s).inode dir = .ok inode →
    Follows vol table (exec ((fs i).readDir dir) s).2 t →
      (exec ((fs j).lookup dir name) t).1 =
        (exec ((fs i).readDir dir) s).1.map fun es => entryNamed es name
  lookup_readDir : ∀ {i j dir name s t inode}, (table s).inode dir = .ok inode →
    Follows vol table (exec ((fs i).lookup dir name) s).2 t →
      (exec ((fs i).lookup dir name) s).1 =
        (exec ((fs j).readDir dir) t).1.map fun es => entryNamed es name

namespace Interning

variable {records : υ → ν → Outcome (List (Str × κ))}

theorem reaches_follows (h : Interning fs vol table records) {s t : σ} (hrun : Reaches fs s t) :
    Follows vol table s t := hrun.keeps (fun i => h.follows i s) (.refl s)

/-- A call on a node that was handed out leaves the states that follow it as they are. -/
theorem after_again (h : Interning fs vol table records) {i : ι} {c : Call} {s t : σ} {inode : ν}
    (hnode : (table s).inode c.node = .ok inode)
    (hfollows : Follows vol table ((fs i).after c s) t) : (fs i).after c t = t := by
  cases c with
  | lookup dir name => exact congrArg Prod.snd ((h.lookup name hnode).2 t hfollows)
  | readDir dir => exact congrArg Prod.snd ((h.readDir hnode).2 t hfollows)
  | metadata node => exact congrArg Prod.snd ((h.metadata hnode).2 t hfollows)
  | readAt node off buf => exact congrArg Prod.snd ((h.readAt off buf hnode).2 t hfollows)
  | readLink node => exact congrArg Prod.snd ((h.readLink hnode).2 t hfollows)

theorem walk_follows (h : Interning fs vol table records) (calls : List (ι × Call)) (s : σ) :
    Follows vol table s (walk fs calls s) := by
  induction calls generalizing s with
  | nil => exact .refl s
  | cons call calls ih =>
    obtain ⟨i, c⟩ := call
    have hfirst : Follows vol table s ((fs i).after c s) := (h.follows i s).after c (.refl s)
    exact hfirst.trans (ih _)

theorem walk_again (h : Interning fs vol table records) {calls : List (ι × Call)} {s t : σ}
    (hwalk : Walkable fs table calls s) (hfollows : Follows vol table (walk fs calls s) t) :
    walk fs calls t = t := by
  induction calls generalizing s with
  | nil => rfl
  | cons call calls ih =>
    obtain ⟨i, c⟩ := call
    obtain ⟨⟨inode, hnode⟩, hrest⟩ := hwalk
    have hsame : (fs i).after c t = t := by
      apply h.after_again hnode
      exact (h.walk_follows calls _).trans hfollows
    show walk fs calls ((fs i).after c t) = t
    rw [hsame]
    exact ih hrest hfollows

theorem entry_mem (h : Interning fs vol table records) {i : ι} {start s t : σ} {dir : NodeId}
    {key : κ} {e : DirEntry} (hvol : vol s = vol start)
    (hentry : HasEntry (fs i) table (records (vol start)) dir s t key e) :
    (key, e.node) ∈ (table t).byKey := by
  obtain ⟨inode, listed, es, n, hinode, hlisted, hread, hrecord, he⟩ := hentry
  obtain ⟨inode', listed', hinode', hlisted', hall⟩ := h.entries hread
  obtain rfl := Except.ok.inj (hinode.symm.trans hinode')
  rw [hvol] at hlisted'
  obtain rfl := Except.ok.inj (hlisted.symm.trans hlisted')
  obtain ⟨hn, hrecord⟩ := List.getElem?_eq_some_iff.mp hrecord
  obtain ⟨hn', he⟩ := List.getElem?_eq_some_iff.mp he
  have hpair := (List.forall₂_iff_get.mp hall).2 n hn hn'
  simp only [List.get_eq_getElem, hrecord, he] at hpair
  exact hpair.2

theorem stable (h : Interning fs vol table records) (start : σ) :
    StableNodes fs table (records (vol start)) start where
  bijective _ := InternTable.bijective _
  permanent _ hrun hnode := (h.reaches_follows hrun).grown.inode hnode
  listed := by
    intro i s t dir key e hs hentry
    have hmem := h.entry_mem (h.reaches_follows hs).vol_eq hentry
    have hlt := (InternTable.bijective _).node_lt_iff.mpr ⟨key, hmem⟩
    exact ⟨_, InternTable.inode_eq_ok.mpr (List.getElem?_eq_getElem hlt)⟩
  found := by
    intro i s t dir name node _ hlookup
    obtain ⟨key, hmem⟩ := h.found hlookup
    have hlt := (InternTable.bijective _).node_lt_iff.mpr ⟨key, hmem⟩
    exact ⟨_, InternTable.inode_eq_ok.mpr (List.getElem?_eq_getElem hlt)⟩
  every_entry := by
    intro i s t dir es hs hread e he
    obtain ⟨inode, listed, hinode, hlisted, hall⟩ := h.entries hread
    rw [(h.reaches_follows hs).vol_eq] at hlisted
    obtain ⟨n, he⟩ := List.mem_iff_getElem?.mp he
    obtain ⟨record, hrecord, hname⟩ : ∃ record, listed[n]? = some record ∧ e.name = record.1 := by
      obtain ⟨hlen, hpairs⟩ := List.forall₂_iff_get.mp hall
      obtain ⟨hn, rfl⟩ := List.getElem?_eq_some_iff.mp he
      exact ⟨_, List.getElem?_eq_getElem (hlen ▸ hn), (hpairs n (hlen ▸ hn) hn).1⟩
    refine ⟨record.2, inode, listed, es, n, hinode, hlisted, hread, ?_, he⟩
    rw [hrecord, hname]
  same_node := by
    intro i j s t u v dir dir' key key' e e' hs hentry hu hentry' htv
    have hmem := h.entry_mem (h.reaches_follows hs).vol_eq hentry
    have hmem : (key, e.node) ∈ (table v).byKey := (h.reaches_follows htv).grown.keys _ hmem
    have hmem' : (key', e'.node) ∈ (table v).byKey :=
      h.entry_mem (h.reaches_follows hu).vol_eq hentry'
    constructor
    · intro hnode
      rw [← hnode] at hmem'
      exact (InternTable.bijective _).key_unique hmem hmem'
    · rintro rfl
      exact (InternTable.bijective _).node_unique hmem hmem'
  walk_again hs hwalk hrun := h.walk_again hwalk (h.reaches_follows hrun)
  readDir_lookup _ hnode hrun := h.readDir_lookup hnode (h.reaches_follows hrun)
  lookup_readDir _ hnode hrun := h.lookup_readDir hnode (h.reaches_follows hrun)

end Interning

end Walks

end Lamfold
