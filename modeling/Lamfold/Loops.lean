import Lamfold.Machines

/-!
Loops that are left with a value. An iteration that lowers a measure whenever the loop
goes on makes the loop end, and what every iteration keeps decides how it ends.
-/
namespace Lamfold.Loops

open Machines

variable {ε σ β : Type}

/-- An iteration of a loop fails, leaves the loop with a value or goes on. -/
abbrev Loop (ε σ β : Type) := σ → Except ε (β ⊕ σ)

/-- The iterations of a loop, as the steps of a machine. -/
def iterations (body : Loop ε σ β) : Machine ε σ := fun s => (body s).map Sum.getRight?

/-- Every iteration after which the loop goes on lowers the measure. -/
def Lowers (measure : σ → ℕ) (body : Loop ε σ β) : Prop :=
  ∀ s t, body s = .ok (.inr t) → measure t < measure s

/-- Iterate from `s` until the loop is left. -/
def run (body : Loop ε σ β) (measure : σ → ℕ) (hlower : Lowers measure body) (s : σ) : Except ε β :=
  match _h : body s with
  | .error e => .error e
  | .ok (.inl b) => .ok b
  | .ok (.inr t) => run body measure hlower t
  termination_by measure s
  decreasing_by exact hlower s t _h

section Rules

variable {body : Loop ε σ β} {measure : σ → ℕ} {hlower : Lowers measure body} {P : σ → Prop}
  {s t : σ} {n : ℕ}

theorem iterations_eq : iterations body s = .ok (some t) ↔ body s = .ok (.inr t) := by
  unfold iterations
  rcases body s with e | b | u
  · simp [Except.map]
  · simp [Except.map]
  · simp [Except.map]

/-- What every iteration keeps holds after any number of them. -/
theorem keeps_iterations (hnext : ∀ {s t}, P s → body s = .ok (.inr t) → P t)
    (hrun : Steps (iterations body) s n t) (hs : P s) : P t :=
  hrun.keeps (fun _ _ hs hstep => hnext hs (iterations_eq.mp hstep)) hs

/-- The measure bounds the number of iterations. -/
theorem iterations_le (hlower : Lowers measure body) (hrun : Steps (iterations body) s n t) :
    n ≤ measure s := by
  have hle := hrun.add_measure_le fun _ _ hstep => hlower _ _ (iterations_eq.mp hstep)
  omega

theorem run_of_next (hlower : Lowers measure body) (h : body s = .ok (.inr t)) :
    run body measure hlower s = run body measure hlower t := by
  rw [run]
  split
  · rename_i hbody
    cases hbody.symm.trans h
  · rename_i hbody
    cases hbody.symm.trans h
  · rename_i hbody
    cases hbody.symm.trans h
    rfl

theorem run_of_leave (hlower : Lowers measure body) {b : β} (h : body s = .ok (.inl b)) :
    run body measure hlower s = .ok b := by
  rw [run]
  split
  · rename_i hbody
    cases hbody.symm.trans h
  · rename_i hbody
    cases hbody.symm.trans h
    rfl
  · rename_i hbody
    cases hbody.symm.trans h

theorem run_ends (hlower : Lowers measure body) (s : σ) : ∃ n t, Steps (iterations body) s n t ∧
    ((∃ b, body t = .ok (.inl b) ∧ run body measure hlower s = .ok b) ∨
      ∃ e, body t = .error e ∧ run body measure hlower s = .error e) := by
  fun_induction run body measure hlower s with
  | case1 s e h => exact ⟨0, s, .refl, .inr ⟨e, h, rfl⟩⟩
  | case2 s b h => exact ⟨0, s, .refl, .inl ⟨b, h, rfl⟩⟩
  | case3 s t h ih =>
    obtain ⟨n, u, hrun, hend⟩ := ih
    exact ⟨n + 1, u, hrun.head (iterations_eq.mpr h), hend⟩

/-- A loop that is left with a value is left in a state that keeps what iterations keep. -/
theorem run_eq_ok {b : β} (hs : P s) (hnext : ∀ {s t}, P s → body s = .ok (.inr t) → P t)
    (h : run body measure hlower s = .ok b) : ∃ t, P t ∧ body t = .ok (.inl b) := by
  obtain ⟨n, t, hrun, ⟨b', hbody, hok⟩ | ⟨e, -, herror⟩⟩ := run_ends hlower s
  · obtain rfl := Except.ok.inj (hok.symm.trans h)
    exact ⟨t, keeps_iterations hnext hrun hs, hbody⟩
  · cases herror.symm.trans h

end Rules

end Lamfold.Loops
