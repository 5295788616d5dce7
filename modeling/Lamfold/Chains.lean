import Mathlib.Logic.Relation
import Mathlib.Data.Nat.Notation

/-!
Chains of a relation in which every item has at most one successor. A chain that
ends has one length, and gets to no item twice.
-/
namespace Lamfold.Chains

variable {α : Type} {r : α → α → Prop} {a b : α} {m n : ℕ}

/-- From `a` on, the chain ends after `n` more items. -/
inductive EndsIn (r : α → α → Prop) : α → ℕ → Prop
  | last {a : α} (hlast : ∀ b, ¬r a b) : EndsIn r a 0
  | next {a b : α} {n : ℕ} (hab : r a b) (hrest : EndsIn r b n) : EndsIn r a (n + 1)

theorem EndsIn.unique (hr : Relator.RightUnique r) (hm : EndsIn r a m)
    (hn : EndsIn r a n) : m = n := by
  induction hm generalizing n with
  | last hlast =>
    cases hn with
    | last _ => rfl
    | next hab _ => exact absurd hab (hlast _)
  | next hab _ ih =>
    cases hn with
    | last hlast => exact absurd hab (hlast _)
    | next hac hrest =>
      obtain rfl := hr hab hac
      rw [ih hrest]

theorem EndsIn.step (hr : Relator.RightUnique r) (h : EndsIn r a n) (hab : r a b) :
    ∃ m < n, EndsIn r b m := by
  cases h with
  | last hlast => exact absurd hab (hlast b)
  | next hac hrest =>
    obtain rfl := hr hab hac
    exact ⟨_, Nat.lt_succ_self _, hrest⟩

theorem EndsIn.follow (hr : Relator.RightUnique r) (h : EndsIn r a n)
    (hab : Relation.TransGen r a b) : ∃ m < n, EndsIn r b m := by
  induction hab with
  | single hab => exact h.step hr hab
  | tail _ hbc ih =>
    obtain ⟨m, hm, hb⟩ := ih
    obtain ⟨k, hk, hc⟩ := hb.step hr hbc
    exact ⟨k, Nat.lt_trans hk hm, hc⟩

/-- A chain that ends does not lead to a cycle. -/
theorem EndsIn.not_cyclic (hr : Relator.RightUnique r) (h : EndsIn r a n)
    (hab : Relation.ReflTransGen r a b) : ¬Relation.TransGen r b b := by
  intro hcycle
  have hb : ∃ m, EndsIn r b m := by
    rcases Relation.reflTransGen_iff_eq_or_transGen.mp hab with rfl | hab
    · exact ⟨n, h⟩
    · obtain ⟨m, -, hb⟩ := h.follow hr hab
      exact ⟨m, hb⟩
  obtain ⟨m, hb⟩ := hb
  obtain ⟨k, hk, hb'⟩ := hb.follow hr hcycle
  exact absurd (hb.unique hr hb') (Nat.ne_of_gt hk)

end Lamfold.Chains
