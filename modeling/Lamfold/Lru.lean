import Mathlib.Algebra.BigOperators.Group.List.Basic
import Mathlib.Algebra.Ring.Nat
import Mathlib.Data.List.Induction
import Mathlib.Data.List.Perm.Basic
import Mathlib.Order.Nat
import Std.Data.TreeMap

/-!
Replacement of what was used least recently. The reference is a list of entries in the order
of their last use, the latest first, whose values together weigh no more than a capacity. An
implementation may keep a map instead, with a stamp in every value that grows with each use:
the list is then the map in the order of its stamps, and its last entry the one of the least.
-/
namespace Lamfold.Lru

variable {κ ν ν' : Type}

/-- What the values of a list weigh together. -/
def total (weight : ν → ℕ) (l : List (κ × ν)) : ℕ := (l.map fun e => weight e.2).sum

/-- Entries are dropped from the back until the others weigh no more than `room`. -/
def evict (weight : ν → ℕ) (room : ℕ) (l : List (κ × ν)) : List (κ × ν) :=
  if total weight l ≤ room then l else evict weight room l.dropLast
  termination_by l.length
  decreasing_by
    cases l with
    | nil => exact absurd (Nat.zero_le room) ‹_›
    | cons e l => simp

section Keys

variable [DecidableEq κ]

def remove (key : κ) (l : List (κ × ν)) : List (κ × ν) := l.filter fun e => e.1 ≠ key

/-- A use of a key moves its entry to the front. -/
def touch (key : κ) (l : List (κ × ν)) : List (κ × ν) :=
  match l.lookup key with
  | none => l
  | some v => (key, v) :: remove key l

/-- An entry takes the place of the one of its key, in front. One that weighs more than the
capacity is ignored. -/
def put (weight : ν → ℕ) (capacity : ℕ) (key : κ) (v : ν) (l : List (κ × ν)) : List (κ × ν) :=
  if weight v ≤ capacity then (key, v) :: evict weight (capacity - weight v) (remove key l) else l

end Keys

section Reference

variable {weight : ν → ℕ} {room : ℕ} {key : κ} {l : List (κ × ν)} {e : κ × ν}

theorem total_cons : total weight (e :: l) = weight e.2 + total weight l := by
  rw [total, List.map_cons, List.sum_cons]
  rfl

theorem total_perm {l' : List (κ × ν)} (h : l.Perm l') : total weight l = total weight l' :=
  (h.map _).sum_eq

theorem evict_of_le (h : total weight l ≤ room) : evict weight room l = l := by
  rw [evict, if_pos h]

/-- The last entry is dropped where all of them weigh too much. -/
theorem evict_concat (h : ¬total weight (l ++ [e]) ≤ room) :
    evict weight room (l ++ [e]) = evict weight room l := by
  rw [evict, if_neg h, List.dropLast_concat]

variable (f : ν' → ν) {l' : List (κ × ν')}

theorem total_map : total weight (l'.map (Prod.map id f)) = total (weight ∘ f) l' := by
  rw [total, List.map_map]
  rfl

theorem evict_map :
    evict weight room (l'.map (Prod.map id f)) =
      (evict (weight ∘ f) room l').map (Prod.map id f) := by
  induction l' using List.reverseRecOn with
  | nil => rw [evict_of_le (Nat.zero_le _), evict_of_le (Nat.zero_le _), List.map_nil]
  | append_singleton l' e ih =>
    by_cases hle : total (weight ∘ f) (l' ++ [e]) ≤ room
    · rw [evict_of_le hle, evict_of_le (by rwa [total_map])]
    · have hmap : ¬total weight (l'.map (Prod.map id f) ++ [Prod.map id f e]) ≤ room := by
        rwa [← List.map_singleton, ← List.map_append, total_map]
      rw [evict_concat hle, List.map_append, List.map_singleton, evict_concat hmap, ih]

variable [DecidableEq κ]

theorem mem_remove : e ∈ remove key l ↔ e ∈ l ∧ e.1 ≠ key := by
  rw [remove, List.mem_filter, decide_eq_true_iff]

theorem remove_map : remove key (l'.map (Prod.map id f)) = (remove key l').map (Prod.map id f) := by
  rw [remove, List.filter_map]
  rfl

theorem lookup_map : (l'.map (Prod.map id f)).lookup key = (l'.lookup key).map f := by
  induction l' with
  | nil => rfl
  | cons e l' ih =>
    obtain ⟨k, v⟩ := e
    rw [List.map_cons, Prod.map_apply, id_eq, List.lookup_cons, List.lookup_cons, ih]
    cases key == k <;> rfl

end Reference

section Maps

variable {cmp : κ → κ → Ordering} {m : Std.TreeMap κ ν cmp} {key : κ} {v : ν} {l : List (κ × ν)}
  {stamp : ν → ℕ}

/-- The list is the map in the order of its stamps, the latest first. -/
structure InOrder (stamp : ν → ℕ) (m : Std.TreeMap κ ν cmp) (l : List (κ × ν)) : Prop where
  mem_iff : ∀ k u, (k, u) ∈ l ↔ m[k]? = some u
  sorted : l.Pairwise fun a b => stamp b.2 < stamp a.2

theorem InOrder.congr {m' : Std.TreeMap κ ν cmp} (h : InOrder stamp m l)
    (hsame : ∀ k : κ, m'[k]? = m[k]?) : InOrder stamp m' l where
  mem_iff k u := by rw [hsame, h.mem_iff]
  sorted := h.sorted

section Order

variable [DecidableEq κ]

theorem InOrder.lookup (h : InOrder stamp m l) (key : κ) : l.lookup key = m[key]? := by
  cases hlookup : l.lookup key with
  | none =>
    cases hfound : m[key]? with
    | none => rfl
    | some v =>
      have hmem := (h.mem_iff key v).mpr hfound
      exact absurd (List.lookup_eq_none_iff.mp hlookup _ hmem) (by simp)
  | some v =>
    obtain ⟨l₁, l₂, rfl, -⟩ := List.lookup_eq_some_iff.mp hlookup
    refine ((h.mem_iff key v).mp ?_).symm
    exact List.mem_append_right _ List.mem_cons_self

theorem InOrder.remove_eq (h : InOrder stamp m l) (habsent : m[key]? = none) :
    remove key l = l := by
  refine List.filter_eq_self.mpr fun e he => decide_eq_true ?_
  rintro rfl
  rw [(h.mem_iff e.1 e.2).mp he] at habsent
  cases habsent

end Order

variable [Std.TransCmp cmp]

theorem InOrder.empty : InOrder stamp (∅ : Std.TreeMap κ ν cmp) [] where
  mem_iff k u := by simp
  sorted := .nil

theorem nodup_toList (m : Std.TreeMap κ ν cmp) : m.toList.Nodup := by
  refine (Std.TreeMap.distinct_keys_toList (t := m)).imp ?_
  rintro a b hkeys rfl
  exact hkeys Std.ReflCmp.compare_self

variable [Std.LawfulEqCmp cmp]

/-- A list with the entries of a map, each once, is a permutation of them. -/
theorem toList_perm (hnodup : l.Nodup) (h : ∀ k u, (k, u) ∈ l ↔ m[k]? = some u) :
    m.toList.Perm l := by
  refine (List.perm_ext_iff_of_nodup (nodup_toList m) hnodup).mpr ?_
  rintro ⟨k, u⟩
  rw [Std.TreeMap.mem_toList_iff_getElem?_eq_some, h]

theorem InOrder.perm (h : InOrder stamp m l) : m.toList.Perm l := by
  refine toList_perm (h.sorted.imp ?_) h.mem_iff
  rintro a b hlt rfl
  exact absurd hlt (lt_irrefl _)

/-- The least stamp is that of the last entry. -/
theorem InOrder.minOn?_eq {e : κ × ν} (h : InOrder stamp m (l ++ [e])) :
    m.toList.minOn? (fun e => stamp e.2) = some e := by
  have hmem : e ∈ m.toList := h.perm.mem_iff.mpr (List.mem_append_right _ List.mem_cons_self)
  obtain ⟨least, hleast⟩ := Option.isSome_iff_exists.mp
    (List.isSome_minOn?_of_mem (f := fun e : κ × ν => stamp e.2) hmem)
  have hle : stamp least.2 ≤ stamp e.2 := by
    have := List.apply_get_minOn?_le_of_mem (f := fun e : κ × ν => stamp e.2) hmem
    rwa [Option.get_of_eq_some _ hleast] at this
  rcases List.mem_append.mp (h.perm.mem_iff.mp (List.minOn?_mem hleast)) with hin | hin
  · have hlt := (List.pairwise_append.mp h.sorted).2.2 _ hin e List.mem_cons_self
    omega
  · rw [hleast, List.mem_singleton.mp hin]

variable [DecidableEq κ]

theorem getElem?_insert (k : κ) : (m.insert key v)[k]? = if key = k then some v else m[k]? := by
  rw [Std.TreeMap.getElem?_insert]
  simp only [Std.LawfulEqCmp.compare_eq_iff_eq]

theorem getElem?_erase (k : κ) : (m.erase key)[k]? = if key = k then none else m[k]? := by
  rw [Std.TreeMap.getElem?_erase]
  simp only [Std.LawfulEqCmp.compare_eq_iff_eq]

theorem nodup_cons_erase : ((key, v) :: (m.erase key).toList).Nodup := by
  refine List.nodup_cons.mpr ⟨?_, nodup_toList _⟩
  rw [Std.TreeMap.mem_toList_iff_getElem?_eq_some, getElem?_erase, if_pos rfl]
  exact nofun

/-- The entry of a key, in front of the others. -/
theorem toList_perm_cons (h : m[key]? = some v) :
    m.toList.Perm ((key, v) :: (m.erase key).toList) := by
  refine toList_perm nodup_cons_erase fun k u => ?_
  rw [List.mem_cons, Std.TreeMap.mem_toList_iff_getElem?_eq_some, getElem?_erase, Prod.mk.injEq]
  by_cases hkey : key = k
  · subst hkey
    simp [h, eq_comm]
  · simp [hkey, Ne.symm hkey]

theorem toList_insert_perm : (m.insert key v).toList.Perm ((key, v) :: (m.erase key).toList) := by
  refine toList_perm nodup_cons_erase fun k u => ?_
  rw [List.mem_cons, Std.TreeMap.mem_toList_iff_getElem?_eq_some, getElem?_erase, getElem?_insert,
    Prod.mk.injEq]
  by_cases hkey : key = k
  · subst hkey
    simp [eq_comm]
  · simp [hkey, Ne.symm hkey]

theorem toList_erase_perm (h : m[key]? = none) : (m.erase key).toList.Perm m.toList := by
  refine toList_perm (nodup_toList m) fun k u => ?_
  rw [Std.TreeMap.mem_toList_iff_getElem?_eq_some, getElem?_erase]
  by_cases hkey : key = k
  · subst hkey
    simp [h]
  · rw [if_neg hkey]

theorem InOrder.erase (h : InOrder stamp m l) (key : κ) :
    InOrder stamp (m.erase key) (remove key l) where
  mem_iff k u := by
    rw [mem_remove, h.mem_iff, getElem?_erase]
    by_cases hkey : key = k
    · simp [hkey]
    · simp [hkey, Ne.symm hkey]
  sorted := h.sorted.filter _

/-- An entry with a later stamp than all others comes first. -/
theorem InOrder.insert (h : InOrder stamp m l) (key : κ) (hlate : ∀ e ∈ l, stamp e.2 < stamp v) :
    InOrder stamp (m.insert key v) ((key, v) :: remove key l) where
  mem_iff k u := by
    rw [List.mem_cons, mem_remove, h.mem_iff, getElem?_insert, Prod.mk.injEq]
    by_cases hkey : key = k
    · simp [hkey, eq_comm]
    · simp [hkey, Ne.symm hkey]
  sorted := List.pairwise_cons.mpr
    ⟨fun e he => hlate e (mem_remove.mp he).1, h.sorted.filter _⟩

/-- Without its last entry, the list is that of the map without it. -/
theorem InOrder.erase_last {e : κ × ν} (h : InOrder stamp m (l ++ [e])) :
    InOrder stamp (m.erase e.1) l := by
  have hother : ∀ a ∈ l, a.1 ≠ e.1 := by
    intro a ha hkeys
    have hlt := (List.pairwise_append.mp h.sorted).2.2 a ha e List.mem_cons_self
    have hfirst := (h.mem_iff a.1 a.2).mp (List.mem_append_left _ ha)
    have hlast := (h.mem_iff e.1 e.2).mp (List.mem_append_right _ List.mem_cons_self)
    rw [hkeys, hlast] at hfirst
    rw [Option.some.inj hfirst] at hlt
    exact lt_irrefl _ hlt
  have hremove : remove e.1 (l ++ [e]) = l := by
    rw [remove, List.filter_append, List.filter_eq_self.mpr fun a ha => decide_eq_true (hother a ha)]
    simp
  have herase := h.erase e.1
  rwa [hremove] at herase

end Maps

end Lamfold.Lru
