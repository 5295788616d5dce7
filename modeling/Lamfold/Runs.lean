import Lamfold.Substrate

/-!
Runs of a mounted volume: any calls of the interface in any order, failed ones
included. What every method of a frontend keeps holds in every state reached.
-/
namespace Lamfold

open Effects

variable {σ ι : Type}

/-- One call of the interface. -/
inductive Call
  | lookup (dir : NodeId) (name : Str)
  | readDir (dir : NodeId)
  | metadata (node : NodeId)
  | readAt (node : NodeId) (off : ℕ) (buf : List UInt8)
  | readLink (node : NodeId)

namespace FoldFrontend

/-- The state a call ends in, also when it fails. -/
def after (fs : FoldFrontend σ) (c : Call) (s : σ) : σ :=
  match c with
  | .lookup dir name => (exec (fs.lookup dir name) s).2
  | .readDir dir => (exec (fs.readDir dir) s).2
  | .metadata node => (exec (fs.metadata node) s).2
  | .readAt node off buf => (exec (fs.readAt node off buf) s).2
  | .readLink node => (exec (fs.readLink node) s).2

/-- The call has one outcome in both states. -/
def SameOutcome (fs : FoldFrontend σ) (c : Call) (s t : σ) : Prop :=
  match c with
  | .lookup dir name => (exec (fs.lookup dir name) s).1 = (exec (fs.lookup dir name) t).1
  | .readDir dir => (exec (fs.readDir dir) s).1 = (exec (fs.readDir dir) t).1
  | .metadata node => (exec (fs.metadata node) s).1 = (exec (fs.metadata node) t).1
  | .readAt node off buf => (exec (fs.readAt node off buf) s).1 = (exec (fs.readAt node off buf) t).1
  | .readLink node => (exec (fs.readLink node) s).1 = (exec (fs.readLink node) t).1

/-- Every method keeps `P`. -/
structure Keeps (fs : FoldFrontend σ) (P : σ → Prop) : Prop where
  lookup : ∀ dir name, Preserves P (fs.lookup dir name)
  readDir : ∀ dir, Preserves P (fs.readDir dir)
  metadata : ∀ node, Preserves P (fs.metadata node)
  readAt : ∀ node off buf, Preserves P (fs.readAt node off buf)
  readLink : ∀ node, Preserves P (fs.readLink node)

theorem Keeps.after {fs : FoldFrontend σ} {P : σ → Prop} (hfs : fs.Keeps P) (c : Call) {s : σ}
    (hs : P s) : P (fs.after c s) := by
  cases c with
  | lookup dir name => exact hfs.lookup dir name s hs
  | readDir dir => exact hfs.readDir dir s hs
  | metadata node => exact hfs.metadata node s hs
  | readAt node off buf => exact hfs.readAt node off buf s hs
  | readLink node => exact hfs.readLink node s hs

theorem Keeps.and {fs : FoldFrontend σ} {P Q : σ → Prop} (hP : fs.Keeps P) (hQ : fs.Keeps Q) :
    fs.Keeps fun s => P s ∧ Q s where
  lookup dir name s h := ⟨hP.lookup dir name s h.1, hQ.lookup dir name s h.2⟩
  readDir dir s h := ⟨hP.readDir dir s h.1, hQ.readDir dir s h.2⟩
  metadata node s h := ⟨hP.metadata node s h.1, hQ.metadata node s h.2⟩
  readAt node off buf s h := ⟨hP.readAt node off buf s h.1, hQ.readAt node off buf s h.2⟩
  readLink node s h := ⟨hP.readLink node s h.1, hQ.readLink node s h.2⟩

end FoldFrontend

/-- The states a volume mounted in state `s` can reach. Each call may bring
another context, so the frontend is a family over these. -/
inductive Reaches (fs : ι → FoldFrontend σ) (s : σ) : σ → Prop
  | refl : Reaches fs s s
  | call {t : σ} (i : ι) (c : Call) : Reaches fs s t → Reaches fs s ((fs i).after c t)

theorem Reaches.keeps {fs : ι → FoldFrontend σ} {P : σ → Prop} (hfs : ∀ i, (fs i).Keeps P)
    {s t : σ} (hrun : Reaches fs s t) (hs : P s) : P t := by
  induction hrun with
  | refl => exact hs
  | call i c _ ih => exact (hfs i).after c ih

theorem Reaches.trans {fs : ι → FoldFrontend σ} {s t u : σ} (hst : Reaches fs s t)
    (htu : Reaches fs t u) : Reaches fs s u := by
  induction htu with
  | refl => exact hst
  | call i c _ ih => exact .call i c ih

theorem keeps_reaches (fs : ι → FoldFrontend σ) (i : ι) (s : σ) : (fs i).Keeps (Reaches fs s) where
  lookup dir name _ h := h.call i (.lookup dir name)
  readDir dir _ h := h.call i (.readDir dir)
  metadata node _ h := h.call i (.metadata node)
  readAt node off buf _ h := h.call i (.readAt node off buf)
  readLink node _ h := h.call i (.readLink node)

/-- From every state in `P`, each method of one frontend runs as that of the other. -/
structure FoldFrontend.Alike (P : σ → Prop) (fs gs : FoldFrontend σ) : Prop where
  lookup : ∀ dir name s, P s → exec (fs.lookup dir name) s = exec (gs.lookup dir name) s
  readDir : ∀ dir s, P s → exec (fs.readDir dir) s = exec (gs.readDir dir) s
  metadata : ∀ node s, P s → exec (fs.metadata node) s = exec (gs.metadata node) s
  readAt : ∀ node off buf s, P s →
    exec (fs.readAt node off buf) s = exec (gs.readAt node off buf) s
  readLink : ∀ node s, P s → exec (fs.readLink node) s = exec (gs.readLink node) s

theorem FoldFrontend.Alike.after {P : σ → Prop} {fs gs : FoldFrontend σ} (h : Alike P fs gs)
    (c : Call) {s : σ} (hs : P s) : fs.after c s = gs.after c s := by
  cases c with
  | lookup dir name => exact congrArg Prod.snd (h.lookup dir name s hs)
  | readDir dir => exact congrArg Prod.snd (h.readDir dir s hs)
  | metadata node => exact congrArg Prod.snd (h.metadata node s hs)
  | readAt node off buf => exact congrArg Prod.snd (h.readAt node off buf s hs)
  | readLink node => exact congrArg Prod.snd (h.readLink node s hs)

/-- Frontends that run alike on what one of them keeps reach the same states. -/
theorem Reaches.of_alike {fs gs : ι → FoldFrontend σ} {P : σ → Prop}
    (halike : ∀ i, (fs i).Alike P (gs i)) (hkeep : ∀ i, (gs i).Keeps P) {s t : σ} (hs : P s)
    (hrun : Reaches fs s t) : Reaches gs s t := by
  induction hrun with
  | refl => exact .refl
  | @call t i c _ ih =>
    rw [(halike i).after c (ih.keeps hkeep hs)]
    exact .call i c ih

theorem exec_reading {α : Type} (f : σ → Outcome α) (s : σ) :
    exec (do (f (← get)) : Method σ α) s = (f s, s) := rfl

theorem preserves_reading {α : Type} (P : σ → Prop) (f : σ → Outcome α) :
    Preserves P (do (f (← get)) : Method σ α) := fun _ hs => hs

/-- When the methods keep every property, the state never changes. -/
theorem Reaches.eq_start {fs : ι → FoldFrontend σ} (hfs : ∀ i P, (fs i).Keeps P) {s t : σ}
    (hrun : Reaches fs s t) : t = s :=
  hrun.keeps (P := fun u => u = s) (fun i => hfs i _) rfl

end Lamfold
