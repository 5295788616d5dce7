import Mathlib.Data.Nat.Notation
import Mathlib.Tactic.Common

/-!
Machines that take one step after another until they halt or fail. A measure
that every step lowers bounds the number of steps, so every run ends.
-/
namespace Lamfold.Machines

variable {ε σ : Type}

/-- A step fails, halts (`none`) or gives the next state. -/
abbrev Machine (ε σ : Type) := σ → Except ε (Option σ)

variable {step : Machine ε σ} {P : σ → Prop} {measure : σ → ℕ} {s t u : σ} {n : ℕ}

/-- `n` steps lead from `s` to the last state. -/
inductive Steps (step : Machine ε σ) (s : σ) : ℕ → σ → Prop
  | refl : Steps step s 0 s
  | tail {t u : σ} {n : ℕ} (hsteps : Steps step s n t) (hstep : step t = .ok (some u)) :
    Steps step s (n + 1) u

/-- The machine has halted or failed. -/
def Stopped (step : Machine ε σ) (s : σ) : Prop := ∀ t, step s ≠ .ok (some t)

theorem Steps.head (hstep : step s = .ok (some t)) (hrun : Steps step t n u) :
    Steps step s (n + 1) u := by
  induction hrun with
  | refl => exact .tail .refl hstep
  | tail _ hlast ih => exact .tail ih hlast

/-- What every step keeps, a run keeps. -/
theorem Steps.keeps (hkeeps : ∀ s t, P s → step s = .ok (some t) → P t)
    (hrun : Steps step s n t) (hs : P s) : P t := by
  induction hrun with
  | refl => exact hs
  | tail _ hstep ih => exact hkeeps _ _ ih hstep

theorem Steps.add_measure_le (hlower : ∀ s t, step s = .ok (some t) → measure t < measure s)
    (hrun : Steps step s n t) : n + measure t ≤ measure s := by
  induction hrun with
  | refl => omega
  | tail _ hstep ih =>
    have hless := hlower _ _ hstep
    omega

theorem exists_steps (step : Machine ε σ) (s : σ) (n : ℕ) :
    ∃ k t, Steps step s k t ∧ (Stopped step t ∨ k = n) := by
  induction n with
  | zero => exact ⟨0, s, .refl, Or.inr rfl⟩
  | succ n ih =>
    obtain ⟨k, t, hrun, hstopped | rfl⟩ := ih
    · exact ⟨k, t, hrun, Or.inl hstopped⟩
    by_cases hstep : ∃ u, step t = .ok (some u)
    · obtain ⟨u, hu⟩ := hstep
      exact ⟨k + 1, u, hrun.tail hu, Or.inr rfl⟩
    · exact ⟨k, t, hrun, Or.inl fun u hu => hstep ⟨u, hu⟩⟩

/-- Every run ends within the measure of the state it starts from. -/
theorem exists_stopped (hlower : ∀ s t, step s = .ok (some t) → measure t < measure s) (s : σ) :
    ∃ n t, n ≤ measure s ∧ Steps step s n t ∧ Stopped step t := by
  obtain ⟨n, t, hrun, hstopped | rfl⟩ := exists_steps step s (measure s + 1)
  · have hle := hrun.add_measure_le hlower
    exact ⟨n, t, by omega, hrun, hstopped⟩
  · have hle := hrun.add_measure_le hlower
    omega

end Lamfold.Machines
