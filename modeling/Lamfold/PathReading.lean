import Lamfold.Answers
import Lamfold.Path

/-!
Whole-file reads by path, in terms of the calls they make. The metadata call of
a read is the one a metadata request for the same path makes.
-/
namespace Lamfold.Path

open Effects Bytes Utf8

variable {σ : Type} {fs : FoldFrontend σ}

section Keeps

variable {P : σ → Prop} (hfs : fs.Keeps P)

include hfs

theorem lookupChild_preserves (node : NodeId) (comp : Str) :
    Preserves P (lookupChild fs node comp) := by
  have hlookup : Preserves P (do
      let child ← fs.lookup node comp
      (okOr child .notFound : Outcome NodeId)) := by
    refine Preserves.bind (hfs.lookup node comp) ?_
    intro child
    exact Preserves.lift _ _
  unfold lookupChild
  split
  · exact Preserves.throw _ _
  · exact hlookup

theorem linkTarget_preserves (child : NodeId) : Preserves P (linkTarget fs child) := by
  refine Preserves.bind (hfs.readLink child) ?_
  intro target
  refine Preserves.bind (Preserves.lift _ _) ?_
  intro bytes
  exact Preserves.lift _ _

omit hfs in
theorem linkBase_preserves (P : σ → Prop) (node : NodeId) (target : Str) :
    Preserves P (linkBase fs node target) := by
  unfold linkBase
  split
  · refine Preserves.bind (Preserves.get _) ?_
    intro s
    exact Preserves.pure _ _
  · exact Preserves.pure _ _

theorem resolveLoop_preserves (node : NodeId) (pending : List Str) (links : ℕ) :
    Preserves P (resolveLoop fs node pending links) := by
  fun_induction resolveLoop fs node pending links with
  | case1 node links => exact Preserves.pure _ _
  | case2 node links comp pending ihLink ihChild =>
    refine Preserves.bind (lookupChild_preserves hfs node comp) ?_
    intro child
    refine Preserves.bind (hfs.metadata child) ?_
    intro md
    refine Preserves.ite ?_ (ihChild child)
    split
    · exact Preserves.throw _ _
    · refine Preserves.bind (linkTarget_preserves hfs child) ?_
      intro target
      refine Preserves.bind (linkBase_preserves P node target) ?_
      intro base
      exact ihLink (by assumption) target base

theorem resolve_preserves (path : Str) : Preserves P (resolve fs path) := by
  refine Preserves.bind (Preserves.get _) ?_
  intro s
  refine Preserves.bind (resolveLoop_preserves hfs _ _ _) ?_
  intro node
  exact Preserves.pure _ _

end Keeps

section Congruence

variable {gs : FoldFrontend σ}

theorem resolveLoop_congr (hroot : fs.root = gs.root) (hlookup : fs.lookup = gs.lookup)
    (hmetadata : fs.metadata = gs.metadata) (hlink : fs.readLink = gs.readLink)
    (node : NodeId) (pending : List Str) (links : ℕ) :
    resolveLoop fs node pending links = resolveLoop gs node pending links := by
  have hchild : lookupChild fs = lookupChild gs := by
    unfold lookupChild
    rw [hlookup]
  have htarget : linkTarget fs = linkTarget gs := by
    unfold linkTarget
    rw [hlink]
  have hbase : linkBase fs = linkBase gs := by
    unfold linkBase
    rw [hroot]
  fun_induction resolveLoop fs node pending links with
  | case1 node links => rw [resolveLoop]
  | case2 node links comp pending ihLink ih =>
    rw [resolveLoop, hchild, hmetadata, htarget, hbase]
    by_cases hlinks : links + 1 > maxSymlinks
    · simp only [if_pos hlinks, ih]
    · simp only [if_neg hlinks, ihLink hlinks, ih]

/-- Where a path leads does not depend on what is read there. -/
theorem resolve_congr (hroot : fs.root = gs.root) (hlookup : fs.lookup = gs.lookup)
    (hmetadata : fs.metadata = gs.metadata) (hlink : fs.readLink = gs.readLink) (path : Str) :
    resolve fs path = resolve gs path := by
  unfold resolve resolveFrom
  rw [hroot]
  simp only [resolveLoop_congr hroot hlookup hmetadata hlink]

end Congruence

/-- A successful read: the path resolves, its metadata is that of a file within
the cap, and the read loop fills a buffer of the file's size. -/
theorem readPath_eq_ok {path : Str} {s t : σ} {content : List UInt8}
    (h : exec (readPath fs path) s = (.ok content, t)) :
    ∃ node md s₁ s₂, exec (resolve fs path) s = (.ok node, s₁) ∧
      exec (fs.metadata node) s₁ = (.ok md, s₂) ∧ md.kind ≠ .directory ∧
      md.size ≤ maxBootFileBytes ∧
      exec (readLoop fs node md.size 0 (List.replicate md.size 0)) s₂ = (.ok content, t) := by
  obtain ⟨node, s₁, hnode, h⟩ := exec_bind_eq_ok.mp h
  obtain ⟨md, s₂, hmd, h⟩ := exec_bind_eq_ok.mp h
  refine ⟨node, md, s₁, s₂, hnode, hmd, ?_⟩
  split at h
  · cases h
  · rename_i hkind
    obtain ⟨total, s₃, htotal, h⟩ := exec_bind_eq_ok.mp h
    rw [exec_lift] at htotal
    obtain ⟨hsize, rfl⟩ := checkedFullReadLen_eq_ok.mp (Prod.mk.inj htotal).1
    obtain rfl := (Prod.mk.inj htotal).2
    exact ⟨hkind, hsize, h⟩

/-- The empty path is the root. -/
theorem exec_resolve_nil (fs : FoldFrontend σ) (s : σ) :
    exec (resolve fs []) s = (.ok (fs.root s), s) := by
  have hnil : pushComponents [] [] = [] := rfl
  have hloop : exec (resolveLoop fs (fs.root s) [] 0) s = (.ok (fs.root s, 0), s) := by
    rw [resolveLoop]
    rfl
  unfold resolve
  rw [exec_bind, exec_get]
  dsimp only
  rw [exec_bind, resolveFrom, hnil, hloop]
  rfl

theorem exec_readPath_nil (fs : FoldFrontend σ) (s : σ) :
    exec (readPath fs []) s = exec (readNode fs (fs.root s)) s :=
  exec_bind_of_ok (exec_resolve_nil fs s)

/-- A path of one component, which is no link. -/
theorem exec_resolve_one {path comp : Str} {s s₁ s₂ : σ} {child : NodeId} {md : Metadata}
    (hpath : components path = [comp]) (hcomp : comp ≠ dotDot)
    (hlookup : exec (fs.lookup (fs.root s) comp) s = (.ok (some child), s₁))
    (hmd : exec (fs.metadata child) s₁ = (.ok md, s₂)) (hkind : md.kind ≠ .symlink) :
    exec (resolve fs path) s = (.ok child, s₂) := by
  have hchild : exec (lookupChild fs (fs.root s) comp) s = (.ok child, s₁) := by
    unfold lookupChild
    rw [if_neg hcomp]
    exact exec_bind_of_ok hlookup
  have hend : exec (resolveLoop fs child [] 0) s₂ = (.ok (child, 0), s₂) := by
    rw [resolveLoop]
    rfl
  have hloop : exec (resolveFrom fs (fs.root s) path 0) s = (.ok (child, 0), s₂) := by
    unfold resolveFrom pushComponents
    rw [hpath, List.append_nil, resolveLoop]
    refine (exec_bind_of_ok hchild).trans ((exec_bind_of_ok hmd).trans ?_)
    rw [if_neg hkind]
    exact hend
  unfold resolve
  rw [exec_bind, exec_get]
  exact exec_bind_of_ok hloop

theorem metadataPath_eq {path : Str} {node : NodeId} {s s₁ : σ}
    (h : exec (resolve fs path) s = (.ok node, s₁)) :
    exec (metadataPath fs path) s = exec (fs.metadata node) s₁ := exec_bind_of_ok h

/-- When the first read of the loop fills the whole buffer, the loop is done. -/
theorem readLoop_of_first {node : NodeId} {total : ℕ} {s t : σ} {content : List UInt8}
    (hfirst : 0 < total → ∀ n window u,
      exec (fs.readAt node 0 (List.replicate total 0)) s = (.ok (n, window), u) →
        n = total ∧ window.length = total)
    (h : exec (readLoop fs node total 0 (List.replicate total 0)) s = (.ok content, t)) :
    if total = 0 then content = []
    else exec (fs.readAt node 0 (List.replicate total 0)) s = (.ok (total, content), t) := by
  rw [readLoop] at h
  by_cases hzero : total = 0
  · subst hzero
    simp only [Nat.lt_irrefl, if_false, exec_pure, Prod.mk.injEq] at h
    obtain ⟨hcontent, -⟩ := h
    exact (Except.ok.inj hcontent).symm
  · have hpos : 0 < total := Nat.pos_of_ne_zero hzero
    rw [if_neg hzero]
    rw [if_pos hpos] at h
    obtain ⟨⟨n, window⟩, u, hread, h⟩ := exec_bind_eq_ok.mp h
    rw [List.drop_zero] at hread
    obtain ⟨rfl, hlen⟩ := hfirst hpos n window u hread
    have hwhole : overwrite (List.replicate n 0) 0 window = window := by
      unfold overwrite
      rw [List.take_zero, List.nil_append, List.drop_of_length_le (by simp [hlen]),
        List.append_nil]
    simp only [hwhole, hzero, if_false] at h
    rw [readLoop] at h
    simp only [Nat.zero_add, Nat.lt_irrefl, if_false, exec_pure, Prod.mk.injEq] at h
    obtain ⟨hcontent, rfl⟩ := h
    rw [← Except.ok.inj hcontent, ← hlen, List.take_length, hlen]
    exact hread

/-- When the first read fills the whole buffer, it gives the content. -/
theorem exec_readLoop_first {node : NodeId} {total : ℕ} {s : σ}
    (hfirst : 0 < total → ∃ window u,
      exec (fs.readAt node 0 (List.replicate total 0)) s = (.ok (total, window), u) ∧
        window.length = total) :
    ∃ content t, exec (readLoop fs node total 0 (List.replicate total 0)) s = (.ok content, t) ∧
      content.length = total := by
  rw [readLoop]
  by_cases hzero : total = 0
  · subst hzero
    exact ⟨[], s, rfl, rfl⟩
  · have hpos : 0 < total := Nat.pos_of_ne_zero hzero
    obtain ⟨window, u, hread, hlen⟩ := hfirst hpos
    have hwhole : (overwrite (List.replicate total 0) 0 window).length = total := by
      rw [overwrite_length (by rw [List.length_replicate]; omega), List.length_replicate]
    rw [if_pos hpos, List.drop_zero, exec_bind_of_ok hread]
    dsimp only
    rw [if_neg hzero, Nat.zero_add, readLoop, if_neg (Nat.lt_irrefl _)]
    exact ⟨_, u, rfl, by rw [List.length_take, hwhole, Nat.min_self]⟩

/-- In the states of `I`, a read of `node` from a byte up to `avail` supplies the bytes
before `avail`, and leaves the state in `I`. -/
structure Supplies (fs : FoldFrontend σ) (I : σ → Prop) (node : NodeId) (avail : ℕ) : Prop where
  kept : ∀ off buf, Preserves I (fs.readAt node off buf)
  count : ∀ {s off buf n window t}, I s → off ≤ avail →
    exec (fs.readAt node off buf) s = (.ok (n, window), t) →
      n = min buf.length (avail - off) ∧ window.length = buf.length

section Supplies

variable {I : σ → Prop} {node : NodeId} {avail : ℕ}

/-- The loop ends with what there is of the file. -/
theorem Supplies.readLoop_length (h : Supplies fs I node avail) {total done : ℕ}
    {out content : List UInt8} {s t : σ} (hs : I s) (hout : out.length = total)
    (hdone : done ≤ min total avail)
    (hloop : exec (readLoop fs node total done out) s = (.ok content, t)) :
    content.length = min total avail := by
  fun_induction readLoop fs node total done out generalizing s with
  | case1 done out hlt ih =>
    obtain ⟨⟨n, window⟩, u, hread, hloop⟩ := exec_bind_eq_ok.mp hloop
    have hu : I u := by
      have hkept := h.kept done (out.drop done) s hs
      rwa [hread] at hkept
    obtain ⟨hn, hwindow⟩ := h.count hs (by omega) hread
    rw [List.length_drop, hout] at hn hwindow
    have hnext : (overwrite out done window).length = total := by
      rw [overwrite_length (by omega), hout]
    dsimp only at hloop
    split at hloop
    · cases hloop
      rw [List.length_take, hnext]
      omega
    · rename_i hzero
      exact ih n window hzero hu hnext (by omega) hloop
  | case2 done out hge =>
    cases hloop
    rw [List.length_take, hout]
    omega

/-- A file of `size` bytes is never cut short in silence exactly when `P` holds: the loop
of `read_path` returns `size` bytes, and no read inside the file returns less than asked
for and in it. -/
structure WholeIff (fs : FoldFrontend σ) (s : σ) (node : NodeId) (size : ℕ) (P : Prop) : Prop where
  loop : ∀ content t, exec (readLoop fs node size 0 (List.replicate size 0)) s = (.ok content, t) →
    (content.length = size ↔ P)
  reads : (∀ off buf n window t, off < size → buf ≠ [] →
    exec (fs.readAt node off buf) s = (.ok (n, window), t) →
      min buf.length (size - off) ≤ n) ↔ P

/-- What is supplied is the whole file exactly when there is that much of it, provided
that a read where it ends too early succeeds. -/
theorem Supplies.wholeIff (h : Supplies fs I node avail) {s : σ} (hs : I s) {size : ℕ}
    (hshort : avail < size → ∃ n window t,
      exec (fs.readAt node avail [0]) s = (.ok (n, window), t)) :
    WholeIff fs s node size (size ≤ avail) := by
  constructor
  · intro content t hloop
    have hlen := h.readLoop_length hs List.length_replicate (Nat.zero_le _) hloop
    omega
  · constructor
    · intro hall
      by_contra hlt
      obtain ⟨n, window, t, hread⟩ := hshort (by omega)
      have hmin := hall avail [0] n window t (by omega) (List.cons_ne_nil _ _) hread
      have hcount := (h.count hs le_rfl hread).1
      rw [List.length_singleton] at hmin
      omega
    · intro hle off buf n window t hoff _ hread
      have hcount := (h.count hs (by omega) hread).1
      omega

/-- Reads supply the file up to a byte, which is its end exactly when `P` holds; if not,
the read that starts there succeeds. -/
def SuppliedIff (fs : FoldFrontend σ) (I : σ → Prop) (node : NodeId) (size : ℕ) (P : Prop) : Prop :=
  ∃ avail, Supplies fs I node avail ∧ (size ≤ avail ↔ P) ∧
    (avail < size → ∀ s, I s → ∃ n window t,
      exec (fs.readAt node avail [0]) s = (.ok (n, window), t))

theorem SuppliedIff.wholeIff {size : ℕ} {P : Prop} (h : SuppliedIff fs I node size P) {s : σ}
    (hs : I s) : WholeIff fs s node size P := by
  obtain ⟨avail, hsupplies, hiff, hshort⟩ := h
  have hwhole := hsupplies.wholeIff hs fun hlt => hshort hlt s hs
  exact ⟨fun content t hloop => (hwhole.loop content t hloop).trans hiff, hwhole.reads.trans hiff⟩

theorem SuppliedIff.congr {size : ℕ} {P Q : Prop} (h : SuppliedIff fs I node size P)
    (hPQ : P ↔ Q) : SuppliedIff fs I node size Q := by
  obtain ⟨avail, hsupplies, hiff, hshort⟩ := h
  exact ⟨avail, hsupplies, hiff.trans hPQ, hshort⟩

/-- A file whose reads supply all of it. -/
theorem Supplies.suppliedIff {size : ℕ} {P : Prop} (h : Supplies fs I node size) (hP : P) :
    SuppliedIff fs I node size P :=
  ⟨size, h, iff_of_true le_rfl hP, fun hlt => absurd hlt (Nat.lt_irrefl _)⟩

/-- Reads of a node that is refused supply it, whatever its size. -/
theorem suppliedIff_of_refused {size : ℕ} {P : Prop}
    (hkept : ∀ off buf, Preserves I (fs.readAt node off buf))
    (hrefused : ∀ s off buf, I s → ∃ e t, exec (fs.readAt node off buf) s = (.error e, t))
    (hP : P) : SuppliedIff fs I node size P := by
  refine Supplies.suppliedIff ⟨hkept, ?_⟩ hP
  intro s off buf n window t hs _ h
  obtain ⟨e, u, herror⟩ := hrefused s off buf hs
  rw [herror] at h
  cases h

end Supplies

section Missing

variable {ι : Type}

/-- The error of `resolve` for a link without a target. -/
def missingTarget : Fault := .err (.corrupt "symlink without a target")

/-- An error of a call of a frontend, and not that of `resolve`. -/
def OwnError (e : FoldError) : Prop := .err e ≠ missingTarget

@[simp] theorem ownError_iff {e : FoldError} :
    OwnError e ↔ e ≠ .corrupt "symlink without a target" :=
  not_congr ⟨Fault.err.inj, congrArg Fault.err⟩

/-- No call that `resolve` makes fails as a link without a target does. -/
structure OwnErrors (fs : FoldFrontend σ) : Prop where
  lookup : ∀ dir name, MethodRaises OwnError (fs.lookup dir name)
  metadata : ∀ node, MethodRaises OwnError (fs.metadata node)
  readLink : ∀ node, MethodRaises OwnError (fs.readLink node)

/-- In a state reached from `s` a node is a symlink, and right after it has no target. -/
def LinkMissing (fs : ι → FoldFrontend σ) (i : ι) (s : σ) : Prop :=
  ∃ node md u v w, Reaches fs s u ∧ exec ((fs i).metadata node) u = (.ok md, v) ∧
    md.kind = .symlink ∧ exec ((fs i).readLink node) v = (.ok none, w)

variable {fs : ι → FoldFrontend σ} {i : ι} {s u t : σ}

theorem reaches_of_preserves {α : Type} {x : Method σ α} {r : Except Fault α}
    (hx : Preserves (Reaches fs s) x) (hu : Reaches fs s u) (h : exec x u = (r, t)) :
    Reaches fs s t := by
  have hnext := hx u hu
  rwa [h] at hnext

theorem not_missing_of_own {α : Type} {x : Method σ α} (hx : MethodRaises OwnError x) :
    exec x u ≠ (.error missingTarget, t) :=
  fun h => hx u _ (congrArg Prod.fst h) rfl

section OwnErrors

variable (hown : OwnErrors (fs i))

include hown

theorem lookupChild_own (node : NodeId) (comp : Str) :
    MethodRaises OwnError (lookupChild (fs i) node comp) := by
  have hlookup : MethodRaises OwnError (do
      let child ← (fs i).lookup node comp
      (okOr child .notFound : Outcome NodeId)) :=
    (hown.lookup node comp).bind fun child => methodRaises_lift (by simp)
  unfold lookupChild
  split
  · exact methodRaises_throw (by simp)
  · exact hlookup

theorem linkTarget_missing {child : NodeId} {md : Metadata} {v : σ} (hu : Reaches fs s u)
    (hmd : exec ((fs i).metadata child) u = (.ok md, v)) (hkind : md.kind = .symlink)
    (h : exec (linkTarget (fs i) child) v = (.error missingTarget, t)) : LinkMissing fs i s := by
  rcases exec_bind_eq_error.mp h with h | ⟨target, w, htarget, h⟩
  · exact absurd h (not_missing_of_own (hown.readLink child))
  · cases target with
    | none => exact ⟨child, md, u, v, w, hu, hmd, hkind, htarget⟩
    | some bytes =>
      change (okOr (fromUtf8 bytes) (.invalidPath "non-UTF-8 symlink"), w) = _ at h
      cases hutf8 : fromUtf8 bytes with
      | none =>
        rw [hutf8] at h
        cases h
      | some str =>
        rw [hutf8] at h
        cases h

theorem resolveLoop_missing {node : NodeId} {pending : List Str} {links : ℕ}
    (hu : Reaches fs s u)
    (h : exec (resolveLoop (fs i) node pending links) u = (.error missingTarget, t)) :
    LinkMissing fs i s := by
  have hkeeps := keeps_reaches fs i s
  fun_induction resolveLoop (fs i) node pending links generalizing u with
  | case1 node links => cases h
  | case2 node links comp pending ihLink ihChild =>
    rcases exec_bind_eq_error.mp h with h | ⟨child, v, hchild, h⟩
    · exact absurd h (not_missing_of_own (lookupChild_own hown node comp))
    have hv := reaches_of_preserves (lookupChild_preserves hkeeps node comp) hu hchild
    rcases exec_bind_eq_error.mp h with h | ⟨md, w, hmd, h⟩
    · exact absurd h (not_missing_of_own (hown.metadata child))
    have hw := reaches_of_preserves (hkeeps.metadata child) hv hmd
    rw [exec_ite] at h
    split at h
    · split at h
      · cases h
      rename_i hkind hlinks
      rcases exec_bind_eq_error.mp h with h | ⟨target, x, htarget, h⟩
      · exact linkTarget_missing hown hv hmd hkind h
      have hx := reaches_of_preserves (linkTarget_preserves hkeeps child) hw htarget
      rcases exec_bind_eq_error.mp h with h | ⟨base, y, hbase, h⟩
      · unfold linkBase at h
        split at h
        · cases h
        · cases h
      have hy := reaches_of_preserves (linkBase_preserves _ node target) hx hbase
      exact ihLink hlinks target base hy h
    · exact ihChild child hw h

/-- `resolve` finds a link without a target only where `metadata` and `readLink` differ. -/
theorem resolve_missing {path : Str} (hu : Reaches fs s u)
    (h : exec (resolve (fs i) path) u = (.error missingTarget, t)) : LinkMissing fs i s := by
  have hroot : exec (resolve (fs i) path) u =
      exec (resolveFrom (fs i) ((fs i).root u) path 0 >>= fun found => pure found.1) u := rfl
  rw [hroot] at h
  rcases exec_bind_eq_error.mp h with h | ⟨found, v, -, h⟩
  · exact resolveLoop_missing hown hu h
  · cases h

end OwnErrors

end Missing

end Lamfold.Path
