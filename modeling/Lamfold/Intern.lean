import Mathlib.Data.List.Nodup
import Lamfold.Answers

/-!
Interning. Nodes are numbered in the order their keys are first seen, and a key
seen again gets the number it has. A table pairs the keys with the numbers of
its nodes, one to one, and it only grows.
-/
namespace Lamfold

open Effects

/-- The nodes seen so far, and the number of each key. -/
structure InternTable (κ ι : Type) where
  nodes : List ι
  byKey : List (κ × NodeId)
  keys_nodup : (byKey.map Prod.fst).Nodup
  ids_eq : byKey.map Prod.snd = (List.range nodes.length).reverse

namespace InternTable

variable {κ ι α : Type} [DecidableEq κ]

def empty : InternTable κ ι := ⟨[], [], .nil, rfl⟩

/-- The number of `key`, whose node is `inode` when it is new. -/
def intern (t : InternTable κ ι) (key : κ) (inode : ι) : NodeId × InternTable κ ι :=
  match h : t.byKey.lookup key with
  | some id => (id, t)
  | none =>
    (t.nodes.length, {
      nodes := t.nodes ++ [inode]
      byKey := (key, t.nodes.length) :: t.byKey
      keys_nodup := by
        refine List.nodup_cons.mpr ⟨?_, t.keys_nodup⟩
        intro hmem
        obtain ⟨⟨k, id⟩, hk, rfl⟩ := List.mem_map.mp hmem
        have hne := List.lookup_eq_none_iff.mp h _ hk
        simp at hne
      ids_eq := by
        rw [List.map_cons, t.ids_eq, List.length_append, List.length_singleton,
          List.range_succ, List.reverse_append]
        rfl })

def inode (t : InternTable κ ι) (node : NodeId) : Outcome ι := okOr t.nodes[node]? .notFound

/-- `intern` on the table of a mounted volume. -/
def internOne {n : Type → Type} [Monad n] (key : κ) (inode : ι) :
    MethodIn n (InternTable κ ι) NodeId := do
  let t ← get
  let (node, t) := t.intern key inode
  set t
  return node

/-- Intern what the records of a listing parse to, and list it. -/
def internAll {m n : Type → Type} [Monad n] [MonadLiftT m (MethodIn n (InternTable κ ι))]
    (key : α → κ) (parse : α → m ι) (kind : ι → FileKind) :
    List (Str × α) → MethodIn n (InternTable κ ι) (List DirEntry)
  | [] => pure []
  | (name, record) :: rest => do
    let child ← parse record
    let t ← get
    let (node, t) := t.intern (key record) child
    set t
    let entries ← internAll key parse kind rest
    return ⟨name, node, kind child⟩ :: entries

theorem intern_cases (t : InternTable κ ι) (key : κ) (inode : ι) :
    (t.intern key inode).2 = t ∨ (t.intern key inode).2.nodes = t.nodes ++ [inode] := by
  unfold intern
  split
  · exact .inl rfl
  · exact .inr rfl

theorem intern_nodes_prefix (t : InternTable κ ι) (key : κ) (inode : ι) :
    t.nodes <+: (t.intern key inode).2.nodes := by
  rcases t.intern_cases key inode with h | h
  · exact ⟨[], (List.append_nil _).trans (congrArg nodes h.symm)⟩
  · rw [h]
    exact List.prefix_append _ _

/-- Every node of a table has `P`. -/
def All (P : ι → Prop) (t : InternTable κ ι) : Prop := ∀ inode ∈ t.nodes, P inode

omit [DecidableEq κ] in
theorem all_empty (P : ι → Prop) : (empty : InternTable κ ι).All P := fun _ h => (nomatch h)

theorem All.intern {P : ι → Prop} {t : InternTable κ ι} (ht : t.All P) (key : κ) {inode : ι}
    (hnew : P inode) : (t.intern key inode).2.All P := by
  rcases t.intern_cases key inode with h | h
  · rw [h]
    exact ht
  · intro found hfound
    rw [h] at hfound
    rcases List.mem_append.mp hfound with hold | hfound
    · exact ht found hold
    · rw [List.mem_singleton.mp hfound]
      exact hnew

omit [DecidableEq κ] in
theorem inode_eq_ok {t : InternTable κ ι} {node : NodeId} {inode : ι} :
    t.inode node = .ok inode ↔ t.nodes[node]? = some inode := okOr_eq_ok

omit [DecidableEq κ] in
theorem All.inode {P : ι → Prop} {t : InternTable κ ι} (ht : t.All P) {node : NodeId} {inode : ι}
    (h : t.inode node = .ok inode) : P inode :=
  ht inode (List.mem_of_getElem? (inode_eq_ok.mp h))

/-- A node stays what it is. -/
theorem inode_intern {t : InternTable κ ι} {node : NodeId} {inode : ι}
    (h : t.inode node = .ok inode) (key : κ) (new : ι) :
    (t.intern key new).2.inode node = .ok inode := by
  have hold := inode_eq_ok.mp h
  obtain ⟨rest, hrest⟩ := t.intern_nodes_prefix key new
  apply inode_eq_ok.mpr
  rw [← hrest, List.getElem?_append_left (List.getElem?_eq_some_iff.mp hold).1]
  exact hold

/-- Each key stands for the node that `f` gives for it. -/
def Keyed (f : κ → Outcome ι) (t : InternTable κ ι) : Prop :=
  ∀ key node, (key, node) ∈ t.byKey → ∃ inode, t.nodes[node]? = some inode ∧ f key = .ok inode

omit [DecidableEq κ] in
theorem keyed_empty (f : κ → Outcome ι) : (empty : InternTable κ ι).Keyed f :=
  fun _ _ h => (nomatch h)

theorem Keyed.intern {f : κ → Outcome ι} {t : InternTable κ ι} (ht : t.Keyed f) {key : κ}
    {inode : ι} (hnew : f key = .ok inode) : (t.intern key inode).2.Keyed f := by
  unfold InternTable.intern
  split
  · exact ht
  · intro key' node hmem
    rcases List.mem_cons.mp hmem with heq | hold
    · obtain ⟨rfl, rfl⟩ := Prod.mk.inj heq
      exact ⟨inode, List.getElem?_concat_length, hnew⟩
    · obtain ⟨found, hfound, hf⟩ := ht key' node hold
      exact ⟨found, (List.getElem?_append_left (List.getElem?_eq_some_iff.mp hfound).1).trans hfound,
        hf⟩

omit [DecidableEq κ] in
/-- Every node has a key. -/
theorem exists_key {t : InternTable κ ι} {node : NodeId} {inode : ι}
    (h : t.nodes[node]? = some inode) : ∃ key, (key, node) ∈ t.byKey := by
  have hlt := (List.getElem?_eq_some_iff.mp h).1
  have hmem : node ∈ t.byKey.map Prod.snd := by
    rw [t.ids_eq]
    exact List.mem_reverse.mpr (List.mem_range.mpr hlt)
  obtain ⟨⟨key, found⟩, hkey, rfl⟩ := List.mem_map.mp hmem
  exact ⟨key, hkey⟩

theorem internOne_preserves {P : InternTable κ ι → Prop} {key : κ} {inode : ι}
    (hP : ∀ t, P t → P (t.intern key inode).2) : Preserves P (internOne key inode) := hP

/-- Keys and the numbers `0..nodes.len()` belong together, one to one. -/
structure Bijective (t : InternTable κ ι) : Prop where
  node_unique : ∀ {key node node'}, (key, node) ∈ t.byKey → (key, node') ∈ t.byKey → node = node'
  key_unique : ∀ {key key' node}, (key, node) ∈ t.byKey → (key', node) ∈ t.byKey → key = key'
  node_lt_iff : ∀ {node}, node < t.nodes.length ↔ ∃ key, (key, node) ∈ t.byKey

omit [DecidableEq κ] in
theorem bijective (t : InternTable κ ι) : t.Bijective where
  node_unique h h' := by
    cases List.inj_on_of_nodup_map t.keys_nodup h h' rfl
    rfl
  key_unique h h' := by
    have hnodup : (t.byKey.map Prod.snd).Nodup := by
      rw [t.ids_eq]
      exact List.nodup_reverse.mpr List.nodup_range
    cases List.inj_on_of_nodup_map hnodup h h' rfl
    rfl
  node_lt_iff := by
    intro node
    constructor
    · intro hlt
      exact exists_key (List.getElem?_eq_getElem hlt)
    · rintro ⟨key, hkey⟩
      have hmem : node ∈ t.byKey.map Prod.snd := List.mem_map.mpr ⟨_, hkey, rfl⟩
      rw [t.ids_eq] at hmem
      exact List.mem_range.mp (List.mem_reverse.mp hmem)

/-- `u` has all that `t` has, under the same numbers. -/
structure Grown (t u : InternTable κ ι) : Prop where
  nodes : t.nodes <+: u.nodes
  keys : ∀ pair ∈ t.byKey, pair ∈ u.byKey

omit [DecidableEq κ] in
theorem Grown.refl (t : InternTable κ ι) : t.Grown t := ⟨List.prefix_rfl, fun _ h => h⟩

omit [DecidableEq κ] in
theorem Grown.trans {t u v : InternTable κ ι} (htu : t.Grown u) (huv : u.Grown v) : t.Grown v :=
  ⟨htu.nodes.trans huv.nodes, fun pair h => huv.keys pair (htu.keys pair h)⟩

omit [DecidableEq κ] in
theorem Grown.inode {t u : InternTable κ ι} (htu : t.Grown u) {node : NodeId} {inode : ι}
    (h : t.inode node = .ok inode) : u.inode node = .ok inode := by
  obtain ⟨rest, hrest⟩ := htu.nodes
  have hold := inode_eq_ok.mp h
  apply inode_eq_ok.mpr
  rw [← hrest, List.getElem?_append_left (List.getElem?_eq_some_iff.mp hold).1]
  exact hold

theorem mem_of_lookup {t : InternTable κ ι} {key : κ} {node : NodeId}
    (h : t.byKey.lookup key = some node) : (key, node) ∈ t.byKey := by
  obtain ⟨l₁, l₂, hsplit, -⟩ := List.lookup_eq_some_iff.mp h
  rw [hsplit]
  exact List.mem_append_right _ List.mem_cons_self

/-- A key that has a number keeps it, and nothing is added. -/
theorem intern_of_mem {t : InternTable κ ι} {key : κ} {node : NodeId}
    (h : (key, node) ∈ t.byKey) (inode : ι) : t.intern key inode = (node, t) := by
  unfold intern
  split
  · rename_i found hfound
    rw [t.bijective.node_unique (mem_of_lookup hfound) h]
  · rename_i hnone
    have hne := List.lookup_eq_none_iff.mp hnone _ h
    simp at hne

theorem mem_intern (t : InternTable κ ι) (key : κ) (inode : ι) :
    (key, (t.intern key inode).1) ∈ (t.intern key inode).2.byKey := by
  unfold intern
  split
  · rename_i found hfound
    exact mem_of_lookup hfound
  · exact List.mem_cons_self

theorem intern_grown (t : InternTable κ ι) (key : κ) (inode : ι) :
    t.Grown (t.intern key inode).2 := by
  refine ⟨t.intern_nodes_prefix key inode, ?_⟩
  intro pair hpair
  unfold intern
  split
  · exact hpair
  · exact List.mem_cons_of_mem _ hpair

theorem exec_internOne (t : InternTable κ ι) (key : κ) (inode : ι) :
    exec (internOne key inode) t = (.ok (t.intern key inode).1, (t.intern key inode).2) := rfl

theorem repeats_internOne (t : InternTable κ ι) (key : κ) (inode : ι) :
    Repeats Grown (internOne key inode) t := by
  unfold Repeats
  rw [exec_internOne]
  refine ⟨t.intern_grown key inode, ?_⟩
  intro u hu
  rw [exec_internOne, intern_of_mem (hu.keys _ (t.mem_intern key inode))]

section Listings

variable {P : InternTable κ ι → Prop} {key : α → κ} {parse : α → Outcome ι} {kind : ι → FileKind}

/-- What interning a parsed record keeps, interning a listing keeps. -/
theorem internAll_preserves {records : List (Str × α)}
    (hP : ∀ t r child, r ∈ records.map Prod.snd → parse r = .ok child → P t →
      P (t.intern (key r) child).2) :
    Preserves P (internAll key parse kind records) := by
  induction records with
  | nil => exact Preserves.pure _ _
  | cons record records ih =>
    obtain ⟨name, r⟩ := record
    have ih := ih fun t r' child hr' => hP t r' child (List.mem_cons_of_mem _ hr')
    intro t ht
    unfold internAll
    rw [exec_bind, exec_lift]
    cases hparse : parse r with
    | error e => exact ht
    | ok child =>
      have hnext := hP t r child List.mem_cons_self hparse ht
      exact Preserves.bind ih (fun _ => Preserves.pure _ _) _ hnext

theorem internAll_cons (name : Str) (r : α) (records : List (Str × α)) :
    (internAll key parse kind ((name, r) :: records) : Method (InternTable κ ι) _) = (do
      let child ← parse r
      let node ← internOne (key r) child
      let entries ← internAll key parse kind records
      return ⟨name, node, kind child⟩ :: entries) := rfl

/-- A listing can be interned again: it gives the same entries and adds nothing, also
when a record does not parse. -/
theorem repeats_internAll (records : List (Str × α)) (t : InternTable κ ι) :
    Repeats Grown (internAll key parse kind records) t := by
  induction records generalizing t with
  | nil => exact .pure Grown.refl _
  | cons record records ih =>
    obtain ⟨name, r⟩ := record
    rw [internAll_cons]
    refine Repeats.bind Grown.trans (.lift Grown.refl _) fun child u _ => ?_
    refine Repeats.bind Grown.trans (repeats_internOne u _ _) fun node v _ => ?_
    exact Repeats.bind Grown.trans (ih v) fun entries w _ => .pure Grown.refl _

/-- The entries of a listing have the names of its records, and the numbers of their keys. -/
theorem internAll_entries {records : List (Str × α)} {t u : InternTable κ ι}
    {entries : List DirEntry} (h : exec (internAll key parse kind records) t = (.ok entries, u)) :
    List.Forall₂ (fun record e => e.name = record.1 ∧ (key record.2, e.node) ∈ u.byKey)
      records entries := by
  induction records generalizing t entries with
  | nil =>
    cases h
    exact .nil
  | cons record records ih =>
    obtain ⟨name, r⟩ := record
    rw [internAll_cons] at h
    obtain ⟨child, t₁, hparse, h⟩ := exec_bind_eq_ok.mp h
    obtain ⟨node, t₂, hnode, h⟩ := exec_bind_eq_ok.mp h
    obtain ⟨rest, t₃, hrest, h⟩ := exec_bind_eq_ok.mp h
    cases h
    refine .cons ⟨rfl, ?_⟩ (ih hrest)
    rw [exec_internOne] at hnode
    cases hnode
    have hgrown : Grown _ (exec (internAll key parse kind records) (t₁.intern (key r) child).2).2 :=
      (repeats_internAll records _).1
    rw [hrest] at hgrown
    exact hgrown.keys _ (t₁.mem_intern _ _)

/-- A listing whose records all parse is interned. -/
theorem internAll_ok (key : α → κ) (kind : ι → FileKind) (hparse : ∀ r, ∃ child, parse r = .ok child)
    (records : List (Str × α)) (t : InternTable κ ι) :
    ∃ entries, (exec (internAll key parse kind records) t).1 = .ok entries := by
  induction records generalizing t with
  | nil => exact ⟨[], rfl⟩
  | cons record records ih =>
    obtain ⟨name, r⟩ := record
    obtain ⟨child, hchild⟩ := hparse r
    rw [internAll_cons, hchild]
    have hone : exec (internOne (key r) child) t = _ := exec_internOne t (key r) child
    obtain ⟨entries, hentries⟩ := ih (t.intern (key r) child).2
    change ∃ entries, (exec (internOne (key r) child >>= fun node =>
      internAll key parse kind records >>= fun entries =>
        pure (⟨name, node, kind child⟩ :: entries)) t).1 = .ok entries
    rw [exec_bind_of_ok hone, exec_bind_of_ok (Prod.ext hentries rfl)]
    exact ⟨_, rfl⟩

theorem internAll_all {Q : ι → Prop} {records : List (Str × α)}
    (hQ : ∀ r child, r ∈ records.map Prod.snd → parse r = .ok child → Q child) :
    Preserves (All Q) (internAll key parse kind records : Method (InternTable κ ι) _) :=
  internAll_preserves fun _ r child hr hparse ht => ht.intern (key r) (hQ r child hr hparse)

/-- The records of a listing are parsed up to the first that does not parse. -/
def ParsesAnswered (parse : α → Outcome ι) : List (Str × α) → Prop
  | [] => True
  | (_, r) :: rest => Answered (parse r) ∧ ((∃ child, parse r = .ok child) → ParsesAnswered parse rest)

theorem parsesAnswered_ok (records : List (Str × ι)) :
    ParsesAnswered (.ok : ι → Outcome ι) records := by
  induction records with
  | nil => trivial
  | cons record records ih => exact ⟨trivial, fun _ => ih⟩

theorem answered_internAll {records : List (Str × α)} (t : InternTable κ ι) :
    Answered (exec (internAll key parse kind records) t).1 ↔ ParsesAnswered parse records := by
  induction records generalizing t with
  | nil => exact iff_true_intro trivial
  | cons record records ih =>
    obtain ⟨name, r⟩ := record
    unfold internAll ParsesAnswered
    rw [exec_bind, exec_lift]
    cases hparse : parse r with
    | error e =>
      have hno : ¬∃ child, (.error e : Outcome ι) = .ok child := by simp
      simp only [hno, false_implies, and_true]
      cases e <;> simp [Answered]
    | ok child =>
      have hrest := ih (t.intern (key r) child).2
      have hyes : ∃ child', (.ok child : Outcome ι) = .ok child' := ⟨child, rfl⟩
      simp only [answered_ok, hyes, true_implies, true_and]
      rw [← hrest]
      -- `get`, `set` and the binds around them leave the table the rest starts from
      change Answered (exec (internAll key parse kind records >>= fun entries =>
        pure (⟨name, (t.intern (key r) child).1, kind child⟩ :: entries))
          (t.intern (key r) child).2).1 ↔ _
      refine answered_exec_bind.trans (and_iff_left ?_)
      intro entries u _
      trivial

end Listings

end InternTable

end Lamfold
