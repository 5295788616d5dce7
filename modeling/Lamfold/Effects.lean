import Mathlib.Data.Nat.Notation
import Mathlib.Tactic.Common

/-!
Fallible, stateful computations and the rules used to reason about their runs.
A failed computation keeps the state it had reached, as a method of a mutable
object does. Nothing here depends on what the errors or the states are.
-/
namespace Lamfold.Effects

variable {ε σ α β γ : Type}

/-- A bind succeeds exactly when both of its parts do. -/
theorem bind_eq_ok {x : Except ε α} {f : α → Except ε β} {b : β} :
    (x >>= f) = .ok b ↔ ∃ a, x = .ok a ∧ f a = .ok b := by
  cases x with
  | error e => simp [bind, Except.bind]
  | ok a => simp [bind, Except.bind]

theorem ok_bind (a : α) (f : α → Except ε β) : (Except.ok a >>= f) = f a := rfl

/-- Lifted to where it is, a computation stays as it is. -/
theorem lift_self (x : Except ε α) : (liftM x : Except ε α) = x := rfl

theorem lift_ok_bind (a : α) (f : α → Except ε β) :
    ((liftM (Except.ok a : Except ε α) : Except ε α) >>= f) = f a := rfl

theorem error_bind (e : ε) (f : α → Except ε β) :
    ((Except.error e : Except ε α) >>= f) = .error e := rfl

theorem lift_error_bind (e : ε) (f : α → Except ε β) :
    ((liftM (Except.error e : Except ε α) : Except ε α) >>= f) = .error e := rfl

/-- A guard in front of a computation succeeds exactly when it is passed. -/
theorem ite_error_eq_ok {p : Prop} [Decidable p] {e : ε} {x : Except ε α} {a : α} :
    (if p then .error e else x) = .ok a ↔ ¬ p ∧ x = .ok a := by
  by_cases hp : p <;> simp [hp]

/-- The items of a list mapped one after another, stopping at the first error. -/
theorem mapM_eq_ok_cons {f : α → Except ε β} {a : α} {as : List α} {bs : List β} :
    (a :: as).mapM f = .ok bs ↔
      ∃ b rest, f a = .ok b ∧ as.mapM f = .ok rest ∧ bs = b :: rest := by
  rw [List.mapM_cons, bind_eq_ok]
  constructor
  · rintro ⟨b, hb, h⟩
    obtain ⟨rest, hrest, h⟩ := bind_eq_ok.mp h
    exact ⟨b, rest, hb, hrest, (Except.ok.inj h).symm⟩
  · rintro ⟨b, rest, hb, hrest, rfl⟩
    exact ⟨b, hb, bind_eq_ok.mpr ⟨rest, hrest, rfl⟩⟩

theorem mapM_length {f : α → Except ε β} {as : List α} {bs : List β}
    (h : as.mapM f = .ok bs) : bs.length = as.length := by
  induction as generalizing bs with
  | nil =>
    obtain rfl : [] = bs := Except.ok.inj h
    rfl
  | cons a as ih =>
    obtain ⟨b, rest, -, hrest, rfl⟩ := mapM_eq_ok_cons.mp h
    simp [ih hrest]

theorem mem_of_mapM {f : α → Except ε β} {as : List α} {bs : List β}
    (h : as.mapM f = .ok bs) {b : β} (hb : b ∈ bs) : ∃ a ∈ as, f a = .ok b := by
  induction as generalizing bs with
  | nil =>
    obtain rfl : [] = bs := Except.ok.inj h
    cases hb
  | cons a as ih =>
    obtain ⟨c, rest, hc, hrest, rfl⟩ := mapM_eq_ok_cons.mp h
    rcases List.mem_cons.mp hb with rfl | hb
    · exact ⟨a, List.mem_cons_self, hc⟩
    · obtain ⟨a', ha', hfa'⟩ := ih hrest hb
      exact ⟨a', List.mem_cons_of_mem _ ha', hfa'⟩

theorem mapM_eq_ok_map {f : α → Except ε β} {g : α → β} {as : List α}
    (h : ∀ a ∈ as, f a = .ok (g a)) : as.mapM f = .ok (as.map g) := by
  induction as with
  | nil => rfl
  | cons a as ih =>
    refine mapM_eq_ok_cons.mpr ⟨g a, as.map g, h a List.mem_cons_self, ?_, rfl⟩
    exact ih fun b hb => h b (List.mem_cons_of_mem _ hb)

/-- What every step of a loop keeps, the loop keeps. -/
theorem foldlM_keeps {P : β → Prop} {f : β → α → Except ε β}
    (hstep : ∀ b a b', P b → f b a = .ok b' → P b') {as : List α} {b c : β} (hb : P b)
    (h : as.foldlM f b = .ok c) : P c := by
  induction as generalizing b with
  | nil =>
    obtain rfl : b = c := Except.ok.inj h
    exact hb
  | cons a as ih =>
    rw [List.foldlM_cons] at h
    obtain ⟨b', hb', h⟩ := bind_eq_ok.mp h
    exact ih (hstep b a b' hb hb') h

/-- A computation on a state that may fail and then leaves the state as it is, over a
monad `m` of what else it does. -/
abbrev OpIn (m : Type → Type) (ε σ α : Type) := ExceptT ε (StateT σ m) α

/-- One that does nothing else. -/
abbrev Op (ε σ α : Type) := OpIn Id ε σ α

/-- Run `x` from state `s`: its result and the state it ends in. -/
def exec (x : Op ε σ α) (s : σ) : Except ε α × σ := x.run.run s

@[simp] theorem exec_pure (a : α) (s : σ) : exec (pure a : Op ε σ α) s = (.ok a, s) := rfl

@[simp] theorem exec_throw (e : ε) (s : σ) :
    exec (throw e : Op ε σ α) s = (.error e, s) := rfl

@[simp] theorem exec_lift (x : Except ε α) (s : σ) :
    exec (liftM x : Op ε σ α) s = (x, s) := rfl

@[simp] theorem exec_get (s : σ) : exec (get : Op ε σ σ) s = (.ok s, s) := rfl

@[simp] theorem exec_set (t s : σ) : exec (set t : Op ε σ PUnit) s = (.ok ⟨⟩, t) := rfl

@[simp] theorem exec_modify (f : σ → σ) (s : σ) :
    exec (modify f : Op ε σ PUnit) s = (.ok ⟨⟩, f s) := rfl

theorem exec_bind (x : Op ε σ α) (f : α → Op ε σ β) (s : σ) :
    exec (x >>= f) s =
      match exec x s with
      | (.ok a, t) => exec (f a) t
      | (.error e, t) => (.error e, t) := by
  have h : exec (x >>= f) s =
      exec (match (exec x s).1 with
        | .ok a => f a
        | .error e => throw e) (exec x s).2 := rfl
  rw [h]
  rcases exec x s with ⟨_ | _, t⟩ <;> rfl

/-- A sequence of two computations succeeds when both do, the second from the
state the first one left. -/
theorem exec_bind_eq_ok {x : Op ε σ α} {f : α → Op ε σ β} {s t : σ} {b : β} :
    exec (x >>= f) s = (.ok b, t) ↔
      ∃ a u, exec x s = (.ok a, u) ∧ exec (f a) u = (.ok b, t) := by
  rw [exec_bind]
  rcases h : exec x s with ⟨e | a, u⟩
  · simp
  · simp

/-- It fails when the first does, or the second from the state the first one left. -/
theorem exec_bind_eq_error {x : Op ε σ α} {f : α → Op ε σ β} {s t : σ} {e : ε} :
    exec (x >>= f) s = (.error e, t) ↔
      exec x s = (.error e, t) ∨ ∃ a u, exec x s = (.ok a, u) ∧ exec (f a) u = (.error e, t) := by
  rw [exec_bind]
  rcases h : exec x s with ⟨e | a, u⟩
  · simp
  · simp

theorem exec_bind_of_ok {x : Op ε σ α} {f : α → Op ε σ β} {s u : σ} {a : α}
    (h : exec x s = (.ok a, u)) : exec (x >>= f) s = exec (f a) u := by
  rw [exec_bind, h]

theorem exec_bind_of_error {x : Op ε σ α} {f : α → Op ε σ β} {s u : σ} {e : ε}
    (h : exec x s = (.error e, u)) : exec (x >>= f) s = (.error e, u) := by
  rw [exec_bind, h]

/-- A computation is known by its runs. -/
theorem op_ext {x y : Op ε σ α} (h : ∀ s, exec x s = exec y s) : x = y := funext h

/-- Two sequences run alike when their parts do. -/
theorem exec_bind_congr {x y : Op ε σ α} {f g : α → Op ε σ β} {s : σ} (hxy : exec x s = exec y s)
    (hfg : ∀ a t, exec y s = (.ok a, t) → exec (f a) t = exec (g a) t) :
    exec (x >>= f) s = exec (y >>= g) s := by
  rw [exec_bind, exec_bind, hxy]
  rcases hrun : exec y s with ⟨e | a, t⟩
  · rfl
  · exact hfg a t hrun

theorem exec_ite {p : Prop} [Decidable p] (x y : Op ε σ α) (s : σ) :
    exec (if p then x else y) s = if p then exec x s else exec y s := by
  by_cases hp : p <;> simp [hp]

/-- Run `x` on a part of a larger state. -/
def zoom {m : Type → Type} [Monad m] {τ : Type} (part : τ → σ) (put : σ → τ → τ)
    (x : OpIn m ε σ α) : OpIn m ε τ α :=
  ExceptT.mk fun t => do
    let (r, u) ← x.run.run (part t)
    return (r, put u t)

theorem exec_zoom {τ : Type} (part : τ → σ) (put : σ → τ → τ) (x : Op ε σ α) (t : τ) :
    exec (zoom part put x) t = ((exec x (part t)).1, put (exec x (part t)).2 t) := rfl

/-- Every run of `x` that starts in `P` ends in `P`, failed runs included. -/
def Preserves (P : σ → Prop) (x : Op ε σ α) : Prop := ∀ s, P s → P (exec x s).2

theorem Preserves.of_exec {P : σ → Prop} {x : Op ε σ α} (hx : Preserves P x) {s t : σ}
    {r : Except ε α} (hs : P s) (hrun : exec x s = (r, t)) : P t := by
  have ht := hx s hs
  rwa [hrun] at ht

theorem Preserves.pure (P : σ → Prop) (a : α) : Preserves P (Pure.pure a : Op ε σ α) :=
  fun _ h => h

theorem Preserves.throw (P : σ → Prop) (e : ε) :
    Preserves P (MonadExcept.throw e : Op ε σ α) := fun _ h => h

theorem Preserves.lift (P : σ → Prop) (x : Except ε α) :
    Preserves P (liftM x : Op ε σ α) := fun _ h => h

theorem Preserves.get (P : σ → Prop) : Preserves P (MonadState.get : Op ε σ σ) :=
  fun _ h => h

theorem Preserves.get_bind {P : σ → Prop} {f : σ → Op ε σ α}
    (hf : ∀ s, P s → Preserves P (f s)) : Preserves P (MonadState.get >>= f) := by
  intro s hs
  rw [exec_bind, exec_get]
  exact hf s hs s hs

theorem Preserves.zoom {τ : Type} {part : τ → σ} {put : σ → τ → τ} {P : σ → Prop} {Q : τ → Prop}
    {x : Op ε σ α} (hx : Preserves P x) (hpart : ∀ t, Q t → P (part t))
    (hput : ∀ s t, P s → Q t → Q (put s t)) : Preserves Q (Effects.zoom part put x) := by
  intro t ht
  rw [exec_zoom]
  exact hput _ t (hx _ (hpart t ht)) ht

theorem Preserves.bind {P : σ → Prop} {x : Op ε σ α} {f : α → Op ε σ β}
    (hx : Preserves P x) (hf : ∀ a, Preserves P (f a)) : Preserves P (x >>= f) := by
  intro s hs
  have hu := hx s hs
  rw [exec_bind]
  rcases h : exec x s with ⟨e | a, u⟩
  · simpa [h] using hu
  · exact hf a u (by simpa [h] using hu)

theorem Preserves.ite {P : σ → Prop} {p : Prop} [Decidable p] {x y : Op ε σ α}
    (hx : Preserves P x) (hy : Preserves P y) : Preserves P (if p then x else y) := by
  by_cases hp : p
  · simpa [hp] using hx
  · simpa [hp] using hy

/-- From a state in `P`, `x` ends with a result and a state in `Q`, or fails in a
state in `E`. -/
def Triple (P : σ → Prop) (x : Op ε σ α) (Q : α → σ → Prop) (E : σ → Prop) : Prop :=
  ∀ s, P s → match exec x s with
    | (.ok a, t) => Q a t
    | (.error _, t) => E t

section Triples

variable {P : σ → Prop} {Q : α → σ → Prop} {E : σ → Prop}

theorem Triple.of_ok {x : Op ε σ α} (hx : Triple P x Q E) {s t : σ} {a : α} (hs : P s)
    (hrun : exec x s = (.ok a, t)) : Q a t := by
  have h := hx s hs
  rwa [hrun] at h

theorem Triple.of_error {x : Op ε σ α} (hx : Triple P x Q E) {s t : σ} {e : ε} (hs : P s)
    (hrun : exec x s = (.error e, t)) : E t := by
  have h := hx s hs
  rwa [hrun] at h

theorem Preserves.triple {x : Op ε σ α} (hx : Preserves P x) : Triple P x (fun _ => P) P := by
  intro s hs
  have h := hx s hs
  rcases hrun : exec x s with ⟨e | a, t⟩
  · rwa [hrun] at h
  · rwa [hrun] at h

theorem Triple.preserves {x : Op ε σ α} (hx : Triple P x (fun _ => P) P) : Preserves P x := by
  intro s hs
  rcases hrun : exec x s with ⟨e | a, t⟩
  · exact hx.of_error hs hrun
  · exact hx.of_ok hs hrun

theorem Triple.pure {a : α} (h : ∀ s, P s → Q a s) : Triple P (Pure.pure a : Op ε σ α) Q E := h

theorem Triple.throw {e : ε} (h : ∀ s, P s → E s) :
    Triple P (MonadExcept.throw e : Op ε σ α) Q E := h

theorem Triple.lift {x : Except ε α} (hok : ∀ s a, P s → x = .ok a → Q a s)
    (herr : ∀ s, P s → E s) : Triple P (liftM x : Op ε σ α) Q E := by
  intro s hs
  rw [exec_lift]
  cases x with
  | error e => exact herr s hs
  | ok a => exact hok s a hs rfl

theorem Triple.bind {x : Op ε σ β} {f : β → Op ε σ α} {R : β → σ → Prop}
    (hx : Triple P x R E) (hf : ∀ b, Triple (R b) (f b) Q E) : Triple P (x >>= f) Q E := by
  intro s hs
  rw [exec_bind]
  rcases hrun : exec x s with ⟨e | b, t⟩
  · exact hx.of_error hs hrun
  · exact hf b t (hx.of_ok hs hrun)

theorem Triple.get_bind {f : σ → Op ε σ α} (h : ∀ s, P s → Triple (· = s) (f s) Q E) :
    Triple P (MonadState.get >>= f) Q E := by
  intro s hs
  rw [exec_bind, exec_get]
  exact h s hs s rfl

theorem Triple.zoom {τ : Type} {part : τ → σ} {put : σ → τ → τ} {x : Op ε σ α} {P' : τ → Prop}
    {Q' : α → τ → Prop} {E' : τ → Prop} (hx : Triple P x Q E) (hP : ∀ t, P' t → P (part t))
    (hQ : ∀ t a s, P' t → Q a s → Q' a (put s t)) (hE : ∀ t s, P' t → E s → E' (put s t)) :
    Triple P' (Effects.zoom part put x) Q' E' := by
  intro t ht
  rw [exec_zoom]
  rcases hrun : exec x (part t) with ⟨e | a, s⟩
  · exact hE t s ht (hx.of_error (hP t ht) hrun)
  · exact hQ t a s ht (hx.of_ok (hP t ht) hrun)

theorem Triple.ite {p : Prop} [Decidable p] {x y : Op ε σ α} (hx : p → Triple P x Q E)
    (hy : ¬p → Triple P y Q E) : Triple P (if p then x else y) Q E := by
  by_cases hp : p
  · rw [if_pos hp]
    exact hx hp
  · rw [if_neg hp]
    exact hy hp

theorem Triple.weaken {x : Op ε σ α} {P' : σ → Prop} {Q' : α → σ → Prop} {E' : σ → Prop}
    (hx : Triple P' x Q' E') (hP : ∀ s, P s → P' s) (hQ : ∀ a s, Q' a s → Q a s)
    (hE : ∀ s, E' s → E s) : Triple P x Q E := by
  intro s hs
  rcases hrun : exec x s with ⟨e | a, t⟩
  · exact hE t (hx.of_error (hP s hs) hrun)
  · exact hQ a t (hx.of_ok (hP s hs) hrun)

end Triples

section Agree

variable {τ : Type} {R : σ → τ → Prop}

/-- From related states, `x` and `y` give the same result and end in related states. -/
def Agree (R : σ → τ → Prop) (x : Op ε σ α) (y : Op ε τ α) : Prop :=
  ∀ s t, R s t → (exec x s).1 = (exec y t).1 ∧ R (exec x s).2 (exec y t).2

theorem Agree.pure (a : α) : Agree R (Pure.pure a : Op ε σ α) (Pure.pure a) :=
  fun _ _ h => ⟨rfl, h⟩

theorem Agree.throw (e : ε) :
    Agree R (MonadExcept.throw e : Op ε σ α) (MonadExcept.throw e) := fun _ _ h => ⟨rfl, h⟩

theorem Agree.lift (x : Except ε α) : Agree R (liftM x : Op ε σ α) (liftM x) :=
  fun _ _ h => ⟨rfl, h⟩

theorem Agree.bind {x : Op ε σ α} {y : Op ε τ α} {f : α → Op ε σ β} {g : α → Op ε τ β}
    (hxy : Agree R x y) (hfg : ∀ a, Agree R (f a) (g a)) : Agree R (x >>= f) (y >>= g) := by
  intro s t h
  obtain ⟨hres, hrel⟩ := hxy s t h
  rw [exec_bind, exec_bind]
  rcases hx : exec x s with ⟨r, s'⟩
  rcases hy : exec y t with ⟨r', t'⟩
  rw [hx, hy] at hres hrel
  obtain rfl : r = r' := hres
  cases r with
  | error e => exact ⟨rfl, hrel⟩
  | ok a => exact hfg a s' t' hrel

theorem Agree.ite {p : Prop} [Decidable p] {x x' : Op ε σ α} {y y' : Op ε τ α}
    (hx : p → Agree R x y) (hy : ¬p → Agree R x' y') :
    Agree R (if p then x else x') (if p then y else y') := by
  by_cases hp : p
  · rw [if_pos hp, if_pos hp]
    exact hx hp
  · rw [if_neg hp, if_neg hp]
    exact hy hp

end Agree

section Repeats

variable {R : σ → σ → Prop} {s : σ}

/-- From every state that follows the one `x` ends in, `x` gives the result it gave and
leaves the state as it is. -/
def Repeats (R : σ → σ → Prop) (x : Op ε σ α) (s : σ) : Prop :=
  R s (exec x s).2 ∧ ∀ u, R (exec x s).2 u → exec x u = ((exec x s).1, u)

/-- What reads the same in all states that follow can be repeated. -/
theorem Repeats.reading {x : Op ε σ α} {r : Except ε α} (hrefl : ∀ s, R s s)
    (h : ∀ u, R s u → exec x u = (r, u)) : Repeats R x s := by
  unfold Repeats
  rw [h s (hrefl s)]
  exact ⟨hrefl s, h⟩

theorem Repeats.pure (hrefl : ∀ s, R s s) (a : α) : Repeats R (Pure.pure a : Op ε σ α) s :=
  .reading hrefl fun _ _ => rfl

theorem Repeats.throw (hrefl : ∀ s, R s s) (e : ε) :
    Repeats R (MonadExcept.throw e : Op ε σ α) s := .reading hrefl fun _ _ => rfl

theorem Repeats.lift (hrefl : ∀ s, R s s) (x : Except ε α) :
    Repeats R (liftM x : Op ε σ α) s := .reading hrefl fun _ _ => rfl

theorem Repeats.bind {x : Op ε σ α} {f : α → Op ε σ β}
    (htrans : ∀ {s t u}, R s t → R t u → R s u) (hx : Repeats R x s)
    (hf : ∀ a t, exec x s = (.ok a, t) → Repeats R (f a) t) : Repeats R (x >>= f) s := by
  obtain ⟨hgrow, hagain⟩ := hx
  unfold Repeats
  rw [exec_bind]
  rcases hrun : exec x s with ⟨e | a, t⟩
  · rw [hrun] at hgrow hagain
    refine ⟨hgrow, fun u hu => ?_⟩
    rw [exec_bind, hagain u hu]
  · rw [hrun] at hgrow hagain
    obtain ⟨hgrow', hagain'⟩ := hf a t hrun
    refine ⟨htrans hgrow hgrow', fun u hu => ?_⟩
    rw [exec_bind, hagain u (htrans hgrow' hu)]
    exact hagain' u hu

/-- The state may be read for what stays the same in it. -/
theorem Repeats.get_bind {f : σ → Op ε σ α} (hf : ∀ u, R s u → f u = f s) (hs : Repeats R (f s) s)
    (htrans : ∀ {s t u}, R s t → R t u → R s u) : Repeats R (MonadState.get >>= f) s := by
  have hrun : ∀ u, exec (MonadState.get >>= f) u = exec (f u) u := fun u => by
    rw [exec_bind, exec_get]
  unfold Repeats
  rw [hrun]
  refine ⟨hs.1, fun u hu => ?_⟩
  rw [hrun, hf u (htrans hs.1 hu), hs.2 u hu]

theorem Repeats.ite {p : Prop} [Decidable p] {x y : Op ε σ α} (hx : p → Repeats R x s)
    (hy : ¬p → Repeats R y s) : Repeats R (if p then x else y) s := by
  by_cases hp : p
  · rw [if_pos hp]
    exact hx hp
  · rw [if_neg hp]
    exact hy hp

end Repeats

end Lamfold.Effects
