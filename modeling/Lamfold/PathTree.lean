import Mathlib.Data.Nat.Notation
import Mathlib.Data.List.Infix
import Mathlib.Logic.Function.Basic
import Mathlib.Tactic.Common

/-!
Trees of named nodes as partial functions from paths. Planting a value at a path
puts an implied value at every missing node on the way; what it does to the
value at one path depends on that value alone, so a sequence of plantings can be
followed path by path.
-/
namespace Lamfold.PathTree

variable {ν α : Type}

/-- The value at each path; `none` where there is no node. -/
abbrev Tree (ν α : Type) := List ν → Option α

/-- The last value planted at `q` itself. -/
def lastAt [DecidableEq ν] (q : List ν) (files : List (List ν × α)) : Option α :=
  (files.filter fun file => file.1 = q).getLast?.map Prod.snd

theorem mem_of_lastAt [DecidableEq ν] {q : List ν} {files : List (List ν × α)} {e : α}
    (h : lastAt q files = some e) : (q, e) ∈ files := by
  obtain ⟨file, hfile, rfl⟩ := Option.map_eq_some_iff.mp h
  obtain ⟨hmem, hat⟩ := List.mem_filter.mp (List.mem_of_getLast? hfile)
  obtain rfl : file.1 = q := of_decide_eq_true hat
  exact hmem

theorem lastAt_snoc [DecidableEq ν] (q : List ν) (files : List (List ν × α))
    (file : List ν × α) :
    lastAt q (files ++ [file]) = if file.1 = q then some file.2 else lastAt q files := by
  unfold lastAt
  rw [List.filter_append, List.filter_singleton]
  by_cases h : file.1 = q
  · rw [if_pos h, decide_eq_true h, cond_true, List.getLast?_concat]
    rfl
  · rw [if_neg h, decide_eq_false h, cond_false, List.append_nil]

/-- Every node's parent is a node. -/
def Closed (t : Tree ν α) : Prop := ∀ p name, t (p ++ [name]) ≠ none → t p ≠ none

theorem Closed.none_append {t : Tree ν α} (h : Closed t) {p : List ν} (hp : t p = none)
    (tail : List ν) : t (p ++ tail) = none := by
  induction tail using List.reverseRecOn with
  | nil => rwa [List.append_nil]
  | append_singleton tail name ih =>
    by_contra hsome
    rw [← List.append_assoc] at hsome
    exact h _ name hsome ih

theorem snoc_of_between {base q rest : List ν} {comp : ν} (hbase : base <+: q)
    (hne : q ≠ base) (hq : q <+: base ++ comp :: rest) : base ++ [comp] <+: q := by
  obtain ⟨tail, rfl⟩ := hbase
  cases tail with
  | nil => exact absurd (List.append_nil base) hne
  | cons name tail =>
    have hcons : name :: tail <+: comp :: rest := (List.prefix_append_right_inj base).mp hq
    obtain ⟨rfl, -⟩ := List.cons_prefix_cons.mp hcons
    exact ⟨tail, by simp⟩

theorem ne_of_snoc_prefix {base q : List ν} {comp : ν} (h : base ++ [comp] <+: q) : q ≠ base := by
  intro heq
  have hlen := h.length_le
  rw [heq, List.length_append, List.length_singleton] at hlen
  omega

variable [DecidableEq ν]

/-- How values are planted: what a missing node on the way gets, and which
values replace an old one at their own path. -/
structure Rule (α : Type) where
  implied : α
  wins : α → Bool

namespace Rule

variable (rule : Rule α)

/-- The value at a node on the way of `e`, which is the end of it when `last`. -/
def place (last : Prop) [Decidable last] (e : α) : Option α → α
  | some old => if last ∧ rule.wins e then e else old
  | none => if last then e else rule.implied

/-- Plant `e` at the path `base ++ comps`, below `base`. -/
def plant (t : Tree ν α) (base comps : List ν) (e : α) : Tree ν α :=
  match comps with
  | [] => t
  | comp :: rest =>
    let here := base ++ [comp]
    plant (Function.update t here (some (rule.place (rest = []) e (t here)))) here rest e

/-- What planting `e` at `p` makes of the value at `q`. -/
def stepAt (q p : List ν) (e : α) (old : Option α) : Option α :=
  if q <+: p then some (rule.place (q = p) e old) else old

/-- Planting, path by path: below `base` it steps each value, elsewhere it does
nothing. -/
theorem plant_apply (t : Tree ν α) (base comps : List ν) (e : α) (q : List ν) :
    rule.plant t base comps e q =
      if base <+: q ∧ q ≠ base then rule.stepAt q (base ++ comps) e (t q) else t q := by
  induction comps generalizing base t with
  | nil =>
    rw [plant, List.append_nil]
    by_cases h : base <+: q ∧ q ≠ base
    · have hnot : ¬ q <+: base := by
        intro hq
        exact h.2 (hq.eq_of_length (Nat.le_antisymm hq.length_le h.1.length_le))
      rw [if_pos h, stepAt, if_neg hnot]
    · rw [if_neg h]
  | cons comp rest ih =>
    rw [plant, ih, List.append_assoc, List.singleton_append]
    by_cases hhere : q = base ++ [comp]
    · have hprefix : base ++ [comp] <+: base ++ comp :: rest := ⟨rest, by simp⟩
      have hlast : (base ++ [comp] = base ++ comp :: rest) = (rest = []) := by
        rw [List.append_cancel_left_eq, List.cons.injEq]
        simp [eq_comm]
      subst hhere
      rw [if_neg (by simp), Function.update_self, if_pos ⟨List.prefix_append _ _, by simp⟩,
        stepAt, if_pos hprefix]
      simp only [hlast]
    · rw [Function.update_of_ne hhere]
      by_cases hbelow : base ++ [comp] <+: q
      · have hbase : base <+: q := (List.prefix_append base [comp]).trans hbelow
        rw [if_pos ⟨hbelow, hhere⟩, if_pos ⟨hbase, ne_of_snoc_prefix hbelow⟩]
      · rw [if_neg fun h => hbelow h.1]
        by_cases hq : base <+: q ∧ q ≠ base
        · have hnot : ¬ q <+: base ++ comp :: rest := fun h =>
            hbelow (snoc_of_between hq.1 hq.2 h)
          rw [if_pos hq, stepAt, if_neg hnot]
        · rw [if_neg hq]

/-- Plant every value of a list, in order. -/
def plantAll (t : Tree ν α) (files : List (List ν × α)) : Tree ν α :=
  files.foldl (fun t file => rule.plant t [] file.1 file.2) t

theorem plantAll_nil_apply (t : Tree ν α) (files : List (List ν × α)) :
    rule.plantAll t files [] = t [] := by
  induction files generalizing t with
  | nil => rfl
  | cons file files ih =>
    have h : rule.plant t [] file.1 file.2 [] = t [] := by
      rw [plant_apply, if_neg (by simp)]
    rw [plantAll, List.foldl_cons]
    exact (ih _).trans h

theorem plantAll_apply (t : Tree ν α) (files : List (List ν × α)) {q : List ν} (hq : q ≠ []) :
    rule.plantAll t files q =
      files.foldl (fun old file => rule.stepAt q file.1 file.2 old) (t q) := by
  induction files generalizing t with
  | nil => rfl
  | cons file files ih =>
    have h : rule.plant t [] file.1 file.2 q = rule.stepAt q file.1 file.2 (t q) := by
      rw [plant_apply, if_pos ⟨List.nil_prefix, hq⟩, List.nil_append]
    rw [plantAll, List.foldl_cons, List.foldl_cons, ← h]
    exact ih _

/-- The last value planted at `q` itself that replaces what was there. -/
def lastWinner (q : List ν) (files : List (List ν × α)) : Option α :=
  (files.filter fun file => file.1 = q ∧ rule.wins file.2).getLast?.map Prod.snd

/-- The value the node at `q` is created with, by the first planting at or below it. -/
def created (q : List ν) (files : List (List ν × α)) : Option α :=
  (files.find? fun file => q <+: file.1).map fun file =>
    if file.1 = q then file.2 else rule.implied

theorem lastWinner_snoc (q : List ν) (files : List (List ν × α)) (file : List ν × α) :
    rule.lastWinner q (files ++ [file]) =
      if file.1 = q ∧ rule.wins file.2 then some file.2 else rule.lastWinner q files := by
  unfold lastWinner
  rw [List.filter_append]
  by_cases h : file.1 = q ∧ rule.wins file.2
  · rw [if_pos h, List.filter_singleton, decide_eq_true h, cond_true, List.getLast?_concat]
    rfl
  · rw [if_neg h, List.filter_singleton, decide_eq_false h, cond_false, List.append_nil]

theorem created_snoc (q : List ν) (files : List (List ν × α)) (file : List ν × α) :
    rule.created q (files ++ [file]) =
      (rule.created q files).or
        (if q <+: file.1 then some (if file.1 = q then file.2 else rule.implied) else none) := by
  unfold created
  rw [List.find?_append, List.find?_singleton]
  cases files.find? fun file => decide (q <+: file.1) with
  | some first => rfl
  | none =>
    by_cases h : q <+: file.1
    · simp [h]
    · simp [h]

/-- Where nothing was, the last planting that replaces decides, and without one
the first planting at or below the path. -/
theorem foldl_stepAt (q : List ν) (files : List (List ν × α)) :
    files.foldl (fun old file => rule.stepAt q file.1 file.2 old) none =
      (rule.lastWinner q files).or (rule.created q files) := by
  induction files using List.reverseRecOn with
  | nil => rfl
  | append_singleton files file ih =>
    rw [List.foldl_append, List.foldl_cons, List.foldl_nil, ih, lastWinner_snoc, created_snoc,
      stepAt]
    by_cases hbelow : q <+: file.1
    · rw [if_pos hbelow, if_pos hbelow]
      by_cases hat : file.1 = q
      · by_cases hwins : rule.wins file.2
        · rw [if_pos ⟨hat, hwins⟩, if_pos hat]
          cases (rule.lastWinner q files).or (rule.created q files) <;>
            simp [place, hat, hwins]
        · rw [if_neg fun h => hwins h.2, if_pos hat, ← Option.or_assoc]
          cases (rule.lastWinner q files).or (rule.created q files) <;>
            simp [place, hat, hwins]
      · have hne : q ≠ file.1 := fun h => hat h.symm
        rw [if_neg fun h => hat h.1, if_neg hat, ← Option.or_assoc]
        cases (rule.lastWinner q files).or (rule.created q files) <;> simp [place, hne]
    · have hat : file.1 ≠ q := by
        rintro rfl
        exact hbelow (List.prefix_refl _)
      rw [if_neg hbelow, if_neg hbelow, if_neg fun h => hat h.1, Option.or_none]

theorem lastWinner_eq_some {q : List ν} {files : List (List ν × α)} {e : α}
    (h : rule.lastWinner q files = some e) : (q, e) ∈ files ∧ rule.wins e := by
  obtain ⟨file, hfile, rfl⟩ := Option.map_eq_some_iff.mp h
  obtain ⟨hmem, hat⟩ := List.mem_filter.mp (List.mem_of_getLast? hfile)
  obtain ⟨rfl, hwins⟩ : file.1 = q ∧ rule.wins file.2 := of_decide_eq_true hat
  exact ⟨hmem, hwins⟩

theorem lastWinner_eq_none_iff {q : List ν} {files : List (List ν × α)} :
    rule.lastWinner q files = none ↔ ∀ e, (q, e) ∈ files → ¬ rule.wins e := by
  unfold lastWinner
  rw [Option.map_eq_none_iff, List.getLast?_eq_none_iff, List.filter_eq_nil_iff]
  constructor
  · intro h e hmem hwins
    exact h (q, e) hmem (decide_eq_true ⟨rfl, hwins⟩)
  · rintro h ⟨p, e⟩ hmem hat
    obtain ⟨rfl, hwins⟩ : p = q ∧ rule.wins e := of_decide_eq_true hat
    exact h e hmem hwins

/-- A last value that replaces is the last of those that do. -/
theorem lastWinner_of_lastAt {q : List ν} {files : List (List ν × α)} {e : α}
    (h : lastAt q files = some e) (hwins : rule.wins e) : rule.lastWinner q files = some e := by
  induction files using List.reverseRecOn with
  | nil => cases h
  | append_singleton files file ih =>
    rw [lastAt_snoc] at h
    rw [lastWinner_snoc]
    by_cases hat : file.1 = q
    · rw [if_pos hat] at h
      obtain rfl : file.2 = e := Option.some.inj h
      rw [if_pos ⟨hat, hwins⟩]
    · rw [if_neg hat] at h
      rw [if_neg fun hboth => hat hboth.1]
      exact ih h

theorem created_eq_none_iff {q : List ν} {files : List (List ν × α)} :
    rule.created q files = none ↔ ∀ file ∈ files, ¬ q <+: file.1 := by
  unfold created
  simp

theorem created_eq_some {q : List ν} {files : List (List ν × α)} {e : α}
    (h : rule.created q files = some e) : (q, e) ∈ files ∨ e = rule.implied := by
  obtain ⟨file, hfind, rfl⟩ := Option.map_eq_some_iff.mp h
  by_cases hat : file.1 = q
  · rw [if_pos hat]
    exact Or.inl (hat ▸ List.mem_of_find?_eq_some hfind)
  · rw [if_neg hat]
    exact Or.inr rfl

/-- The tree that plantings below a lone root end in. -/
theorem plantAll_root_apply (root : α) (files : List (List ν × α)) {q : List ν} (hq : q ≠ []) :
    rule.plantAll (fun p => if p = [] then some root else none) files q =
      (rule.lastWinner q files).or (rule.created q files) := by
  rw [plantAll_apply rule _ files hq, if_neg hq, foldl_stepAt]

end Rule

end Lamfold.PathTree
