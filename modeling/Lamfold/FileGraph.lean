import Mathlib.Data.Nat.Notation
import Mathlib.Tactic.Common

/-!
Files and directories as a graph. A directory has named entries, which may lead to one file
under several names; a symbolic link has a target that stands for the names it is followed by.
A path leads to a file when its names do, each link on the way replaced by its target.
-/
namespace Lamfold.FileGraph

variable {ν δ ι : Type}

/-- What a file is: its names and their files, its data, or the target it is a link to. -/
inductive Item (ν δ ι : Type)
  | dir (entries : List (ν × ι))
  | file (data : δ)
  | link (target : δ)
  | special

structure Graph (ν δ ι : Type) where
  root : ι
  item : ι → Item ν δ ι

/-- The names that may be walked, and how a target is read: whether it starts at the root, and
its names. -/
structure Rules (ν δ : Type) where
  allowed : ν → Prop
  target : δ → Option (Bool × List ν)

namespace Graph

variable [DecidableEq ν] (g : Graph ν δ ι) (rules : Rules ν δ)

/-- The file under a name of a directory. -/
def child (i : ι) (name : ν) : Option ι :=
  match g.item i with
  | .dir entries => entries.lookup name
  | _ => none

variable {g} in
theorem child_of_dir {i : ι} {entries : List (ν × ι)} (h : g.item i = .dir entries) (name : ν) :
    g.child i name = (entries.find? fun entry => entry.1 = name).map Prod.snd := by
  unfold child
  rw [h]
  dsimp only
  clear h
  induction entries with
  | nil => rfl
  | cons entry entries ih =>
    obtain ⟨first, j⟩ := entry
    rw [List.lookup_cons, List.find?_cons]
    by_cases hfirst : first = name
    · subst hfirst
      simp
    · have hname : (name == first) = false := beq_eq_false_iff_ne.mpr (Ne.symm hfirst)
      simp only [hname, hfirst, decide_false]
      exact ih

def IsLink (i : ι) : Prop := ∃ target, g.item i = .link target

/-- Where the names of a target start. -/
def base (i : ι) (absolute : Bool) : ι := if absolute then g.root else i

/-- The names lead from `i` to a file, by way of so many links. -/
inductive Leads : ι → List ν → ι → ℕ → Prop
  | here (i : ι) : Leads i [] i 0
  | entry {i j k : ι} {name : ν} {rest : List ν} {n : ℕ} (hallowed : rules.allowed name)
      (hchild : g.child i name = some j) (hlink : ¬g.IsLink j) (hrest : Leads j rest k n) :
      Leads i (name :: rest) k n
  | link {i j mid k : ι} {name : ν} {rest names : List ν} {target : δ} {absolute : Bool}
      {n m : ℕ} (hallowed : rules.allowed name) (hchild : g.child i name = some j)
      (hlink : g.item j = .link target) (htarget : rules.target target = some (absolute, names))
      (hbase : Leads (g.base i absolute) names mid n) (hrest : Leads mid rest k m) :
      Leads i (name :: rest) k (n + m + 1)

variable {g rules} {i j k : ι} {upper lower : List ν} {n m : ℕ}

/-- Names in two parts lead somewhere by way of where the first part leads. -/
theorem Leads.split (h : g.Leads rules i (upper ++ lower) k n) :
    ∃ mid n₁ n₂, g.Leads rules i upper mid n₁ ∧ g.Leads rules mid lower k n₂ ∧ n = n₁ + n₂ := by
  generalize hnames : upper ++ lower = names at h
  induction h generalizing upper with
  | here i =>
    obtain ⟨rfl, rfl⟩ := List.append_eq_nil_iff.mp hnames
    exact ⟨i, 0, 0, .here i, .here i, rfl⟩
  | @entry i j k name rest n hallowed hchild hlink hrest ih =>
    cases upper with
    | nil =>
      rw [List.nil_append] at hnames
      subst hnames
      exact ⟨i, 0, n, .here i, .entry hallowed hchild hlink hrest, (Nat.zero_add n).symm⟩
    | cons first upper =>
      obtain ⟨rfl, htail⟩ := List.cons.inj hnames
      obtain ⟨mid, n₁, n₂, hupper, hlower, hcount⟩ := ih htail
      exact ⟨mid, n₁, n₂, .entry hallowed hchild hlink hupper, hlower, hcount⟩
  | @link i j mid k name rest names target absolute n₁ n₂ hallowed hchild hlink htarget hbase
      hrest _ ih =>
    cases upper with
    | nil =>
      rw [List.nil_append] at hnames
      subst hnames
      exact ⟨i, 0, _, .here i, .link hallowed hchild hlink htarget hbase hrest,
        (Nat.zero_add _).symm⟩
    | cons first upper =>
      obtain ⟨rfl, htail⟩ := List.cons.inj hnames
      obtain ⟨last, m₁, m₂, hupper, hlower, hcount⟩ := ih htail
      exact ⟨last, n₁ + m₁ + 1, m₂, .link hallowed hchild hlink htarget hbase hupper, hlower,
        by omega⟩

end Graph

end Lamfold.FileGraph
