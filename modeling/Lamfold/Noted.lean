import Lamfold.Effects

/-!
Computations that note what they do on the way to their result. One with notes is held
against one without: it has the same result and state, and every note has a property.
-/
namespace Lamfold.Effects

variable {ρ ε σ τ α β : Type}

/-- A result, and what was noted on the way to it. -/
structure Noted (ρ ε α : Type) where
  result : Except ε α
  notes : List ρ

namespace Noted

/-- Nothing is noted. -/
def of (x : Except ε α) : Noted ρ ε α := ⟨x, []⟩

def bind (x : Noted ρ ε α) (f : α → Noted ρ ε β) : Noted ρ ε β :=
  match x.result with
  | .ok a => ⟨(f a).result, x.notes ++ (f a).notes⟩
  | .error e => ⟨.error e, x.notes⟩

instance : Monad (Noted ρ ε) where
  pure a := of (.ok a)
  bind := bind

instance : MonadLift (Except ε) (Noted ρ ε) := ⟨of⟩

/-- The result of `x`, also when it failed. -/
def attempt (x : Noted ρ ε α) : Noted ρ ε (Except ε α) := ⟨.ok x.result, x.notes⟩

/-- All notes are in `P`. -/
def Within (P : ρ → Prop) (x : Noted ρ ε α) : Prop := ∀ r ∈ x.notes, P r

theorem within_of (P : ρ → Prop) (x : Except ε α) : (of x : Noted ρ ε α).Within P :=
  fun _ h => nomatch h

/-- The notes of a sequence are those of its parts, as far as it gets. -/
theorem within_bind {P : ρ → Prop} {x : Noted ρ ε α} {f : α → Noted ρ ε β} :
    (x >>= f).Within P ↔ x.Within P ∧ ∀ a, x.result = .ok a → (f a).Within P := by
  show (bind x f).Within P ↔ _
  unfold bind
  cases hx : x.result with
  | error e =>
    constructor
    · intro h
      exact ⟨h, fun a ha => nomatch ha⟩
    · intro h
      exact h.1
  | ok b =>
    constructor
    · intro h
      refine ⟨fun r hr => h r (List.mem_append_left _ hr), ?_⟩
      intro a ha r hr
      obtain rfl := Except.ok.inj ha
      exact h r (List.mem_append_right _ hr)
    · rintro ⟨hfirst, hsecond⟩ r hr
      rcases List.mem_append.mp hr with hr | hr
      · exact hfirst r hr
      · exact hsecond b rfl r hr

theorem bind_of_ok {x : Noted ρ ε α} {a : α} (h : x.result = .ok a) (f : α → Noted ρ ε β) :
    (x >>= f) = ⟨(f a).result, x.notes ++ (f a).notes⟩ := by
  show bind x f = _
  rw [bind, h]

theorem bind_of_error {x : Noted ρ ε α} {e : ε} (h : x.result = .error e) (f : α → Noted ρ ε β) :
    (x >>= f) = ⟨.error e, x.notes⟩ := by
  show bind x f = _
  rw [bind, h]

theorem bind_result (x : Noted ρ ε α) (f : α → Noted ρ ε β) :
    (x >>= f).result = x.result >>= fun a => (f a).result := by
  show (bind x f).result = _
  unfold bind
  cases x.result with
  | error e => rfl
  | ok a => rfl

end Noted

/-- `x` has the result `y`, and all of its notes are in `P`. -/
structure Tracks (P : ρ → Prop) (x : Noted ρ ε α) (y : Except ε α) : Prop where
  result : x.result = y
  within : x.Within P

namespace Tracks

variable {P : ρ → Prop}

theorem of (x : Except ε α) : Tracks P (Noted.of x) x := ⟨rfl, Noted.within_of P x⟩

theorem pure (a : α) : Tracks P (Pure.pure a : Noted ρ ε α) (.ok a) := of _

/-- A computation with one note. -/
theorem single {x : Except ε α} {r : ρ} (hr : P r) : Tracks P ⟨x, [r]⟩ x :=
  ⟨rfl, fun _ h => List.mem_singleton.mp h ▸ hr⟩

theorem bind {x : Noted ρ ε α} {y : Except ε α} {f : α → Noted ρ ε β} {g : α → Except ε β}
    (hx : Tracks P x y) (hf : ∀ a, y = .ok a → Tracks P (f a) (g a)) :
    Tracks P (x >>= f) (y >>= g) where
  result := by
    rw [Noted.bind_result, hx.result]
    cases y with
    | error e => rfl
    | ok a => exact (hf a rfl).result
  within := Noted.within_bind.mpr
    ⟨hx.within, fun a ha => (hf a (hx.result.symm.trans ha)).within⟩

theorem attempt {x : Noted ρ ε α} {y : Except ε α} (h : Tracks P x y) :
    Tracks P x.attempt (.ok y) := ⟨congrArg Except.ok h.result, h.within⟩

theorem ite {p : Prop} [Decidable p] {x x' : Noted ρ ε α} {y y' : Except ε α}
    (hx : p → Tracks P x y) (hx' : ¬p → Tracks P x' y') :
    Tracks P (if p then x else x') (if p then y else y') := by
  by_cases hp : p
  · rw [if_pos hp, if_pos hp]
    exact hx hp
  · rw [if_neg hp, if_neg hp]
    exact hx' hp

theorem dite {p : Prop} [Decidable p] {x : p → Noted ρ ε α} {x' : ¬p → Noted ρ ε α}
    {y : p → Except ε α} {y' : ¬p → Except ε α} (hx : ∀ h, Tracks P (x h) (y h))
    (hx' : ∀ h, Tracks P (x' h) (y' h)) : Tracks P (dite p x x') (dite p y y') := by
  by_cases hp : p
  · rw [dif_pos hp, dif_pos hp]
    exact hx hp
  · rw [dif_neg hp, dif_neg hp]
    exact hx' hp

theorem mono {Q : ρ → Prop} {x : Noted ρ ε α} {y : Except ε α} (h : Tracks P x y)
    (hPQ : ∀ r, P r → Q r) : Tracks Q x y := ⟨h.result, fun r hr => hPQ r (h.within r hr)⟩

end Tracks

/-- A computation on a state that notes what it does. -/
abbrev NotedOp (ρ ε σ α : Type) := OpIn (StateM (List ρ)) ε σ α

/-- Run `x` from state `s` behind the notes `log`: its result, the state it ends in, and
all notes. -/
def trace (x : NotedOp ρ ε σ α) (s : σ) (log : List ρ) : (Except ε α × σ) × List ρ :=
  (x.run.run s).run log

/-- Keep the notes of `x` with those that there are. -/
def keep (x : Noted ρ ε α) : NotedOp ρ ε σ α :=
  ExceptT.mk fun s log => ((x.result, s), log ++ x.notes)

instance : MonadLift (Noted ρ ε) (NotedOp ρ ε σ) := ⟨keep⟩

theorem trace_bind (x : NotedOp ρ ε σ α) (f : α → NotedOp ρ ε σ β) (s : σ) (log : List ρ) :
    trace (x >>= f) s log =
      match trace x s log with
      | ((.ok a, t), log) => trace (f a) t log
      | ((.error e, t), log) => ((.error e, t), log) := by
  have h : trace (x >>= f) s log =
      trace (match (trace x s log).1.1 with
        | .ok a => f a
        | .error e => throw e) (trace x s log).1.2 (trace x s log).2 := rfl
  rw [h]
  rcases trace x s log with ⟨⟨_ | _, t⟩, log⟩ <;> rfl

/-- From state `s`, `x` runs as `y`, and all of its notes are in `P`. -/
def TracksAt (P : ρ → Prop) (x : NotedOp ρ ε σ α) (y : Op ε σ α) (s : σ) : Prop :=
  ∀ log, ∃ new, trace x s log = (exec y s, log ++ new) ∧ ∀ r ∈ new, P r

namespace TracksAt

variable {P : ρ → Prop} {s : σ}

theorem notes {x : NotedOp ρ ε σ α} {y : Op ε σ α} (h : TracksAt P x y s) {r : ρ}
    (hr : r ∈ (trace x s []).2) : P r := by
  obtain ⟨new, hrun, hnew⟩ := h []
  rw [hrun, List.nil_append] at hr
  exact hnew r hr

/-- What notes nothing. -/
theorem silent {x : NotedOp ρ ε σ α} {y : Op ε σ α}
    (h : ∀ log, trace x s log = (exec y s, log)) : TracksAt P x y s := by
  intro log
  refine ⟨[], ?_, fun _ h => nomatch h⟩
  rw [h, List.append_nil]

theorem pure (a : α) (s : σ) : TracksAt P (Pure.pure a : NotedOp ρ ε σ α) (Pure.pure a) s :=
  silent fun _ => rfl

theorem throw (e : ε) (s : σ) :
    TracksAt P (MonadExcept.throw e : NotedOp ρ ε σ α) (MonadExcept.throw e) s :=
  silent fun _ => rfl

theorem lift (x : Except ε α) (s : σ) : TracksAt P (liftM x : NotedOp ρ ε σ α) (liftM x) s :=
  silent fun _ => rfl

theorem set (t s : σ) :
    TracksAt P (MonadStateOf.set t : NotedOp ρ ε σ PUnit) (MonadStateOf.set t) s :=
  silent fun _ => rfl

theorem keep {x : Noted ρ ε α} {y : Except ε α} (h : Tracks P x y) (s : σ) :
    TracksAt P (Effects.keep x) (liftM y : Op ε σ α) s := by
  intro log
  refine ⟨x.notes, ?_, h.within⟩
  rw [exec_lift, ← h.result]
  rfl

theorem bind {x : NotedOp ρ ε σ α} {y : Op ε σ α} {f : α → NotedOp ρ ε σ β}
    {g : α → Op ε σ β} (hx : TracksAt P x y s)
    (hf : ∀ a t, exec y s = (.ok a, t) → TracksAt P (f a) (g a) t) :
    TracksAt P (x >>= f) (y >>= g) s := by
  intro log
  obtain ⟨new, hrun, hnew⟩ := hx log
  rw [trace_bind, exec_bind, hrun]
  rcases hy : exec y s with ⟨e | a, t⟩
  · exact ⟨new, rfl, hnew⟩
  · obtain ⟨new', hrun', hnew'⟩ := hf a t hy (log ++ new)
    refine ⟨new ++ new', ?_, ?_⟩
    · rw [← List.append_assoc]
      exact hrun'
    · intro r hr
      exact (List.mem_append.mp hr).elim (hnew r) (hnew' r)

/-- A first part that leaves the state as it is. -/
theorem bind_reading {x : NotedOp ρ ε σ α} {y : Op ε σ α} {f : α → NotedOp ρ ε σ β}
    {g : α → Op ε σ β} (hx : TracksAt P x y s) (hsame : (exec y s).2 = s)
    (hf : ∀ a, (exec y s).1 = .ok a → TracksAt P (f a) (g a) s) :
    TracksAt P (x >>= f) (y >>= g) s := by
  refine hx.bind fun a t hrun => ?_
  rw [hrun] at hsame
  subst hsame
  exact hf a (congrArg Prod.fst hrun)

/-- The state is read. -/
theorem get_bind {f : σ → NotedOp ρ ε σ β} {g : σ → Op ε σ β} (hf : TracksAt P (f s) (g s) s) :
    TracksAt P (MonadState.get >>= f) (MonadState.get >>= g) s := by
  intro log
  rw [trace_bind, exec_bind, exec_get]
  exact hf log

theorem ite {p : Prop} [Decidable p] {x x' : NotedOp ρ ε σ α} {y y' : Op ε σ α}
    (hx : p → TracksAt P x y s) (hx' : ¬p → TracksAt P x' y' s) :
    TracksAt P (if p then x else x') (if p then y else y') s := by
  by_cases hp : p
  · rw [if_pos hp, if_pos hp]
    exact hx hp
  · rw [if_neg hp, if_neg hp]
    exact hx' hp

theorem zoom {part : τ → σ} {put : σ → τ → τ} {x : NotedOp ρ ε σ α} {y : Op ε σ α} {t : τ}
    (h : TracksAt P x y (part t)) :
    TracksAt P (Effects.zoom part put x) (Effects.zoom part put y) t := by
  intro log
  obtain ⟨new, hrun, hnew⟩ := h log
  refine ⟨new, ?_, hnew⟩
  have hzoom : trace (Effects.zoom part put x) t log =
      (((trace x (part t) log).1.1, put (trace x (part t) log).1.2 t), (trace x (part t) log).2) := rfl
  rw [hzoom, exec_zoom, hrun]

theorem mono {Q : ρ → Prop} {x : NotedOp ρ ε σ α} {y : Op ε σ α} (h : TracksAt P x y s)
    (hPQ : ∀ r, P r → Q r) : TracksAt Q x y s := by
  intro log
  obtain ⟨new, hrun, hnew⟩ := h log
  exact ⟨new, hrun, fun r hr => hPQ r (hnew r hr)⟩

end TracksAt

end Lamfold.Effects
