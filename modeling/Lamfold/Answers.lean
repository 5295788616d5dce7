import Lamfold.Codec
import Lamfold.Runs

/-!
Calls that are answered: with a value or a reported error, not with a panic and
not with a loop that never ends. A sequence is answered when each part is, from
the state the parts before it left, so what a computation needs is read off its
parts.
-/
namespace Lamfold

open Effects

variable {α β γ σ : Type}

/-- The outcome is a value or a reported error. -/
def Answered : Outcome α → Prop
  | .error .panic => False
  | .error .hang => False
  | _ => True

theorem answered_error {e : Fault} :
    Answered (.error e : Outcome α) ↔ ∃ reported, e = .err reported := by
  cases e <;> simp [Answered]

theorem answered_of_eq_ok {x : Outcome α} {a : α} (h : x = .ok a) : Answered x := h ▸ trivial

@[simp] theorem answered_ok (a : α) : Answered (.ok a : Outcome α) := trivial

@[simp] theorem answered_fail (e : FoldError) : Answered (fail e : Outcome α) := trivial

@[simp] theorem answered_okOr (x : Option α) (e : FoldError) : Answered (okOr x e) := by
  cases x <;> trivial

@[simp] theorem answered_unwrap {x : Option α} : Answered (unwrap x) ↔ x ≠ none := by
  cases x <;> simp [unwrap, Answered]

@[simp] theorem answered_fits {bits n : ℕ} : Answered (fits bits n) ↔ n < 2 ^ bits := by
  unfold fits
  by_cases h : n < 2 ^ bits <;> simp [h, Answered]

@[simp] theorem answered_minus {a b : ℕ} : Answered (minus a b) ↔ b ≤ a := by
  unfold minus
  by_cases h : b ≤ a <;> simp [h, Answered]

@[simp] theorem answered_checkedLen (size max : ℕ) : Answered (checkedLen size max) := by
  unfold checkedLen
  by_cases h : size > max <;> simp [h]

@[simp] theorem answered_readAt (src : Source) (offset n : ℕ) :
    Answered (src.readAt offset n) := by
  show Answered (src.fill offset n)
  unfold Source.fill
  split
  · exact answered_fail _
  · exact answered_okOr _ _

theorem answered_leAt (n : ℕ) (what : String) (bytes : List UInt8) (o : ℕ) :
    Answered (leAt n what bytes o) := by
  unfold leAt
  cases h : Bytes.slice bytes o n <;> trivial

/-- A sequence is answered when its parts are, as far as they are reached. -/
theorem answered_bind {x : Outcome α} {f : α → Outcome β} :
    Answered (x >>= f) ↔ Answered x ∧ ∀ a, x = .ok a → Answered (f a) := by
  cases x with
  | error e =>
    rw [error_bind]
    cases e <;> simp [Answered]
  | ok a =>
    rw [ok_bind]
    simp

theorem Answered.bind {x : Outcome α} {f : α → Outcome β} (hx : Answered x)
    (hf : ∀ a, x = .ok a → Answered (f a)) : Answered (x >>= f) := answered_bind.mpr ⟨hx, hf⟩

/-- A choice is answered when the branch taken is. -/
theorem answered_ite {p : Prop} [Decidable p] {x y : Outcome α} :
    Answered (if p then x else y) ↔ (p → Answered x) ∧ (¬p → Answered y) := by
  by_cases hp : p <;> simp [hp]

theorem Answered.ite {p : Prop} [Decidable p] {x y : Outcome α} (hx : p → Answered x)
    (hy : ¬p → Answered y) : Answered (if p then x else y) := answered_ite.mpr ⟨hx, hy⟩

theorem answered_map {x : Outcome α} {f : α → β} : Answered (x.map f) ↔ Answered x := by
  rcases x with e | a
  · cases e <;> exact Iff.rfl
  · exact Iff.rfl

/-- A loop over a list is answered when each step is that the steps before reach. -/
theorem answered_mapM_cons {f : α → Outcome β} {a : α} {as : List α} :
    Answered ((a :: as).mapM f) ↔
      Answered (f a) ∧ ((∃ b, f a = .ok b) → Answered (as.mapM f)) := by
  rw [List.mapM_cons, answered_bind]
  constructor
  · rintro ⟨ha, hrest⟩
    refine ⟨ha, ?_⟩
    rintro ⟨b, hb⟩
    exact (answered_bind.mp (hrest b hb)).1
  · rintro ⟨ha, hrest⟩
    refine ⟨ha, ?_⟩
    intro b hb
    exact (hrest ⟨b, hb⟩).bind fun _ _ => trivial

theorem Answered.mapM {f : α → Outcome β} {xs : List α} (h : ∀ x ∈ xs, Answered (f x)) :
    Answered (xs.mapM f) := by
  induction xs with
  | nil => trivial
  | cons a as ih =>
    refine answered_mapM_cons.mpr ⟨h a List.mem_cons_self, fun _ => ?_⟩
    exact ih fun x hx => h x (List.mem_cons_of_mem _ hx)

/-- A loop with a state is answered when every step keeps its invariant and is. -/
theorem Answered.foldlM {P : β → Prop} {f : β → α → Outcome β} {as : List α} {b : β} (hb : P b)
    (hstep : ∀ b, ∀ a ∈ as, P b → Answered (f b a) ∧ ∀ b', f b a = .ok b' → P b') :
    Answered (as.foldlM f b) := by
  induction as generalizing b with
  | nil => trivial
  | cons a as ih =>
    rw [List.foldlM_cons]
    obtain ⟨hans, hkeep⟩ := hstep b a List.mem_cons_self hb
    refine hans.bind ?_
    intro b' hb'
    exact ih (hkeep b' hb') fun b a ha => hstep b a (List.mem_cons_of_mem _ ha)

/-- Every error that is reported is in `P`. -/
def RaisesOnly (P : FoldError → Prop) (x : Outcome α) : Prop := ∀ e, x = .error (.err e) → P e

section RaisesOnly

variable {P : FoldError → Prop}

theorem RaisesOnly.ok (a : α) : RaisesOnly P (.ok a : Outcome α) := fun _ h => nomatch h

theorem RaisesOnly.panic : RaisesOnly P (.error .panic : Outcome α) := fun _ h => nomatch h

theorem RaisesOnly.fail {e : FoldError} (he : P e) : RaisesOnly P (fail e : Outcome α) := by
  intro e' h
  cases h
  exact he

theorem RaisesOnly.okOr {x : Option α} {e : FoldError} (he : P e) : RaisesOnly P (okOr x e) := by
  cases x with
  | none => exact .fail he
  | some a => exact .ok a

theorem RaisesOnly.fits {bits n : ℕ} : RaisesOnly P (fits bits n) := by
  unfold Lamfold.fits
  split
  · exact .ok _
  · exact fun _ h => nomatch h

theorem RaisesOnly.unwrap {x : Option α} : RaisesOnly P (unwrap x) := by
  cases x with
  | none => exact .panic
  | some a => exact .ok a

theorem RaisesOnly.minus {a b : ℕ} : RaisesOnly P (minus a b) := by
  unfold Lamfold.minus
  split
  · exact .ok _
  · exact .panic

/-- A sequence reports what its parts report. -/
theorem RaisesOnly.bind {x : Outcome α} {f : α → Outcome β} (hx : RaisesOnly P x)
    (hf : ∀ a, x = .ok a → RaisesOnly P (f a)) : RaisesOnly P (x >>= f) := by
  cases x with
  | error e =>
    intro e' h
    cases h
    exact hx e' rfl
  | ok a => exact hf a rfl

theorem RaisesOnly.ite {p : Prop} [Decidable p] {x y : Outcome α} (hx : p → RaisesOnly P x)
    (hy : ¬p → RaisesOnly P y) : RaisesOnly P (if p then x else y) := by
  by_cases hp : p
  · rw [if_pos hp]
    exact hx hp
  · rw [if_neg hp]
    exact hy hp

theorem RaisesOnly.mapM {f : α → Outcome β} (h : ∀ a, RaisesOnly P (f a)) {xs : List α} :
    RaisesOnly P (xs.mapM f) := by
  induction xs with
  | nil => exact .ok _
  | cons a as ih =>
    rw [List.mapM_cons]
    exact RaisesOnly.bind (h a) fun _ _ => RaisesOnly.bind ih fun _ _ => .ok _

@[simp] theorem raises_ok (a : α) : RaisesOnly P (.ok a : Outcome α) := .ok a

@[simp] theorem raises_panic : RaisesOnly P (.error .panic : Outcome α) := .panic

@[simp] theorem raises_hang : RaisesOnly P (.error .hang : Outcome α) := fun _ h => nomatch h

@[simp] theorem raises_pure (a : α) : RaisesOnly P (pure a : Outcome α) := .ok a

@[simp] theorem raises_fail_iff {e : FoldError} : RaisesOnly P (fail e : Outcome α) ↔ P e :=
  ⟨fun h => h e rfl, .fail⟩

@[simp] theorem raises_okOr_iff {x : Option α} {e : FoldError} :
    RaisesOnly P (okOr x e) ↔ (x = none → P e) := by
  cases x with
  | none => exact raises_fail_iff.trans ⟨fun h _ => h, fun h => h rfl⟩
  | some a => exact iff_of_true (.ok a) fun h => nomatch h

@[simp] theorem raises_fits {bits n : ℕ} : RaisesOnly P (fits bits n) := .fits

@[simp] theorem raises_minus {a b : ℕ} : RaisesOnly P (minus a b) := .minus

@[simp] theorem raises_unwrap {x : Option α} : RaisesOnly P (unwrap x) := .unwrap

@[simp] theorem raises_bind_iff {x : Outcome α} {f : α → Outcome β} :
    RaisesOnly P (x >>= f) ↔ RaisesOnly P x ∧ ∀ a, x = .ok a → RaisesOnly P (f a) := by
  refine ⟨fun h => ?_, fun h => h.1.bind h.2⟩
  cases x with
  | error e => exact ⟨fun e' he' => h e' (congrArg Except.error (Except.error.inj he')),
      fun a ha => nomatch ha⟩
  | ok a =>
    refine ⟨.ok a, fun b hb => ?_⟩
    cases hb
    exact h

@[simp] theorem raises_map_iff {x : Outcome α} {f : α → β} :
    RaisesOnly P (f <$> x) ↔ RaisesOnly P x := by
  refine raises_bind_iff.trans ⟨And.left, fun h => ⟨h, fun a _ => .ok (f a)⟩⟩

@[simp] theorem raises_ite_iff {p : Prop} [Decidable p] {x y : Outcome α} :
    RaisesOnly P (if p then x else y) ↔ (p → RaisesOnly P x) ∧ (¬p → RaisesOnly P y) := by
  by_cases hp : p <;> simp [hp]

@[simp] theorem raises_leAt_iff {n o : ℕ} {what : String} {bytes : List UInt8} :
    RaisesOnly P (leAt n what bytes o) ↔ (Bytes.slice bytes o n = none → P (.corrupt what)) := by
  simp [leAt]

@[simp] theorem raises_checkedLen_iff {size max : ℕ} :
    RaisesOnly P (checkedLen size max) ↔ (max < size → P (.fileTooLarge size max)) := by
  simp [checkedLen]

/-- A loop with a state raises what its steps raise. -/
theorem RaisesOnly.foldlM {f : β → α → Outcome β} (h : ∀ b a, RaisesOnly P (f b a)) {as : List α}
    {b : β} : RaisesOnly P (as.foldlM f b) := by
  induction as generalizing b with
  | nil => exact .ok b
  | cons a as ih =>
    rw [List.foldlM_cons]
    exact (h b a).bind fun _ _ => ih

end RaisesOnly

/-- In whatever state it starts, `x` reports errors in `P` only. -/
def MethodRaises (P : FoldError → Prop) (x : Method σ α) : Prop :=
  ∀ s, RaisesOnly P (exec x s).1

section MethodRaises

variable {P : FoldError → Prop}

theorem methodRaises_pure (a : α) : MethodRaises P (pure a : Method σ α) :=
  fun _ => .ok a

theorem methodRaises_get : MethodRaises P (get : Method σ σ) := fun s => .ok s

theorem methodRaises_set (s : σ) : MethodRaises P (set s : Method σ PUnit) :=
  fun _ => .ok _

theorem methodRaises_throw {e : FoldError} (h : P e) :
    MethodRaises P (throw (.err e) : Method σ α) := fun _ => .fail h

theorem methodRaises_lift {x : Outcome α} (h : RaisesOnly P x) :
    MethodRaises P (liftM x : Method σ α) := fun _ => h

/-- A sequence of methods reports what its parts report, in any state between them. -/
theorem MethodRaises.bind {x : Method σ α} {f : α → Method σ β} (hx : MethodRaises P x)
    (hf : ∀ a, MethodRaises P (f a)) : MethodRaises P (x >>= f) := by
  intro s
  have hfirst := hx s
  rw [exec_bind]
  rcases hrun : exec x s with ⟨e | a, t⟩
  · rw [hrun] at hfirst
    exact fun e' he' => hfirst e' (congrArg Except.error (Except.error.inj he'))
  · exact hf a t

theorem MethodRaises.ite {p : Prop} [Decidable p] {x y : Method σ α} (hx : p → MethodRaises P x)
    (hy : ¬p → MethodRaises P y) : MethodRaises P (if p then x else y) := by
  by_cases hp : p
  · rw [if_pos hp]
    exact hx hp
  · rw [if_neg hp]
    exact hy hp

theorem MethodRaises.zoom {τ : Type} {part : τ → σ} {put : σ → τ → τ} {x : Method σ α}
    (hx : MethodRaises P x) : MethodRaises P (Effects.zoom part put x) := fun t => hx (part t)

end MethodRaises

/-- An error of the source or of the format. -/
inductive FoldError.SourceOrFormat : FoldError → Prop
  | io (what : String) : SourceOrFormat (.io what)
  | corrupt (what : String) : SourceOrFormat (.corrupt what)
  | unsupported (what : String) : SourceOrFormat (.unsupported what)

theorem sourceErrors_readAt {src : Source} {offset n : ℕ} :
    RaisesOnly FoldError.SourceOrFormat (src.readAt offset n) := by
  show RaisesOnly _ (src.fill offset n)
  unfold Source.fill
  exact .ite (fun _ => .fail (.io _)) fun _ => .okOr (.io _)

section Decoders

variable {ρ : Type} {codecs : Codecs ρ}

/-- A decoder is read until it has what is wanted, or gives nothing. -/
theorem answered_readUpTo {reader : ρ} {want : ℕ} {what : String} :
    Answered (readUpTo codecs reader want what) := by
  fun_induction readUpTo codecs reader want what with
  | case1 reader => trivial
  | case2 reader want hwant hread => trivial
  | case3 reader want hwant reader' hread => trivial
  | case4 reader want hwant chunk reader' hread hchunk ih => exact ih.bind fun _ _ => trivial

/-- A codec is answered on every input. -/
theorem answered_decode {codec : Codec} {input : List UInt8} {expectedLen : ℕ} :
    Answered (decode codecs codec input expectedLen) := by
  refine Answered.bind (answered_checkedLen ..) fun _ _ => ?_
  cases codec with
  | xz => exact answered_readUpTo
  | zstd => exact Answered.bind (answered_okOr ..) fun _ _ => answered_readUpTo
  | _ => exact answered_okOr ..

end Decoders

/-- A sequence of methods is answered when each is, from the state it starts in. -/
theorem answered_exec_bind {x : Method σ α} {f : α → Method σ β} {s : σ} :
    Answered (exec (x >>= f) s).1 ↔ Answered (exec x s).1 ∧
      ∀ a t, exec x s = (.ok a, t) → Answered (exec (f a) t).1 := by
  rw [exec_bind]
  rcases h : exec x s with ⟨e | a, t⟩
  · cases e <;> simp [Answered]
  · simp

theorem answered_exec_lift_bind {x : Outcome α} {f : α → Method σ β} {s : σ} :
    Answered (exec ((liftM x : Method σ α) >>= f) s).1 ↔
      Answered x ∧ ∀ a, x = .ok a → Answered (exec (f a) s).1 := by
  rw [answered_exec_bind, exec_lift]
  refine and_congr_right fun _ => ?_
  constructor
  · intro h a ha
    exact h a s (by rw [ha])
  · intro h a t hrun
    obtain ⟨ha, rfl⟩ := Prod.mk.inj hrun
    exact h a ha

/-- After a part that only reads the state, the rest starts from the same state. -/
theorem answered_exec_reading_bind {f : σ → Outcome α} {g : α → Method σ β} {s : σ}
    (hf : Answered (f s)) :
    Answered (exec ((do (f (← get)) : Method σ α) >>= g) s).1 ↔
      ∀ a, f s = .ok a → Answered (exec (g a) s).1 := by
  rw [answered_exec_bind, exec_reading]
  constructor
  · intro h a ha
    exact h.2 a s (by rw [ha])
  · intro h
    refine ⟨hf, ?_⟩
    intro a t hrun
    obtain ⟨ha, rfl⟩ := Prod.mk.inj hrun
    exact h a ha

theorem answered_exec_ite {p : Prop} [Decidable p] {x y : Method σ α} {s : σ} :
    Answered (exec (if p then x else y) s).1 ↔
      (p → Answered (exec x s).1) ∧ (¬p → Answered (exec y s).1) := by
  by_cases hp : p <;> simp [hp]

namespace FoldFrontend

/-- The call returns: a value or a reported error. -/
def Answers (fs : FoldFrontend σ) (c : Call) (s : σ) : Prop :=
  match c with
  | .lookup dir name => Answered (exec (fs.lookup dir name) s).1
  | .readDir dir => Answered (exec (fs.readDir dir) s).1
  | .metadata node => Answered (exec (fs.metadata node) s).1
  | .readAt node off buf => Answered (exec (fs.readAt node off buf) s).1
  | .readLink node => Answered (exec (fs.readLink node) s).1

/-- Frontends that are alike answer the same calls. -/
theorem Alike.answers {P : σ → Prop} {fs gs : FoldFrontend σ} (h : Alike P fs gs) (c : Call) {s : σ}
    (hs : P s) : fs.Answers c s ↔ gs.Answers c s := by
  cases c with
  | lookup dir name => rw [Answers, Answers, h.lookup dir name s hs]
  | readDir dir => rw [Answers, Answers, h.readDir dir s hs]
  | metadata node => rw [Answers, Answers, h.metadata node s hs]
  | readAt node off buf => rw [Answers, Answers, h.readAt node off buf s hs]
  | readLink node => rw [Answers, Answers, h.readLink node s hs]

end FoldFrontend

end Lamfold
