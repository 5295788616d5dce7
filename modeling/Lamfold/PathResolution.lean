import Lamfold.Path

/-!
Path resolution over a frontend whose answers do not change. The loop of
`resolve` keeps one stack of pending components; `Walk` says what it computes:
a link is walked to its end before the rest of the path, and all links of one
path share a budget. The call log shows which names a resolution looks up and
which targets it follows.
-/
namespace Lamfold.Path

open Effects Bytes Utf8

/-- A component that names a directory entry. -/
structure IsName (name : Str) : Prop where
  ne_nil : name ≠ []
  no_slash : slash ∉ name
  ne_dot : name ≠ dot
  ne_dotDot : name ≠ dotDot

theorem slash_notMem_of_mem_splitOn {path piece : Str} (h : piece ∈ path.splitOn slash) :
    slash ∉ piece := by
  induction path generalizing piece with
  | nil =>
    rw [List.splitOn_nil, List.mem_singleton] at h
    simp [h]
  | cons b rest ih =>
    rw [List.splitOn_cons_eq_if_modifyHead] at h
    obtain ⟨first, others, hsplit⟩ := List.exists_cons_of_ne_nil (List.splitOn_ne_nil slash rest)
    rw [hsplit] at h ih
    by_cases hb : b = slash
    · rw [if_pos (beq_iff_eq.mpr hb), List.mem_cons] at h
      rcases h with rfl | h
      · exact List.not_mem_nil
      · exact ih h
    · rw [if_neg (by simpa using hb), List.modifyHead_cons, List.mem_cons] at h
      rcases h with rfl | h
      · have hfirst : slash ∉ first := ih List.mem_cons_self
        simp only [List.mem_cons, not_or]
        exact ⟨fun heq => hb heq.symm, hfirst⟩
      · exact ih (List.mem_cons_of_mem first h)

/-- Every byte but the slash is in a piece. -/
theorem exists_piece_iff {path : Str} {b : UInt8} (hb : b ≠ slash) :
    (∃ piece ∈ path.splitOn slash, b ∈ piece) ↔ b ∈ path := by
  induction path with
  | nil => simp
  | cons a rest ih =>
    rw [List.splitOn_cons_eq_if_modifyHead, List.mem_cons, ← ih]
    obtain ⟨first, others, hsplit⟩ := List.exists_cons_of_ne_nil (List.splitOn_ne_nil slash rest)
    rw [hsplit]
    by_cases ha : a = slash
    · rw [if_pos (beq_iff_eq.mpr ha)]
      have hne : b ≠ a := fun heq => hb (heq.trans ha)
      simp [hne]
    · rw [if_neg (by simpa using ha), List.modifyHead_cons]
      simp [or_assoc]

theorem mem_components {path name : Str} (h : name ∈ components path) :
    name ≠ [] ∧ slash ∉ name ∧ name ≠ dot := by
  unfold components at h
  obtain ⟨hmem, hkeep⟩ := List.mem_filter.mp h
  simp only [Bool.and_eq_true, Bool.not_eq_true', List.isEmpty_eq_false_iff, bne_iff_ne] at hkeep
  exact ⟨hkeep.1, slash_notMem_of_mem_splitOn hmem, hkeep.2⟩

/-- A byte that no dropped piece has is in a component. -/
theorem exists_component_iff {path : Str} {b : UInt8} (hslash : b ≠ slash) (hdot : b ∉ dot) :
    (∃ name ∈ components path, b ∈ name) ↔ b ∈ path := by
  rw [← exists_piece_iff hslash]
  unfold components
  constructor
  · rintro ⟨name, hname, hb⟩
    exact ⟨name, (List.mem_filter.mp hname).1, hb⟩
  · rintro ⟨piece, hpiece, hb⟩
    refine ⟨piece, List.mem_filter.mpr ⟨hpiece, ?_⟩, hb⟩
    have hne : piece ≠ dot := by
      rintro rfl
      exact hdot hb
    simp [List.ne_nil_of_mem hb, hne]

theorem isName_of_mem_components {path name : Str} (h : name ∈ components path)
    (hdd : name ≠ dotDot) : IsName name := by
  obtain ⟨hne, hslash, hdot⟩ := mem_components h
  exact ⟨hne, hslash, hdot, hdd⟩

theorem components_append (p q : Str) :
    components (p ++ slash :: q) = components p ++ components q := by
  unfold components
  rw [List.splitOn_append_cons_self, List.filter_append]

section Loop

variable {σ : Type} (fs : FoldFrontend σ)

theorem resolveLoop_nil (node : NodeId) (links : ℕ) :
    resolveLoop fs node [] links = pure (node, links) := by
  rw [resolveLoop]

theorem resolveLoop_cons (node : NodeId) (comp : Str) (pending : List Str) (links : ℕ) :
    resolveLoop fs node (comp :: pending) links = (do
      let child ← lookupChild fs node comp
      let md ← fs.metadata child
      if md.kind = .symlink then
        if links + 1 > maxSymlinks then throw (.err (.invalidPath "too many symlinks"))
        else do
          let target ← linkTarget fs child
          let base ← linkBase fs node target
          resolveLoop fs base (pushComponents target pending) (links + 1)
      else resolveLoop fs child pending links) := by
  rw [resolveLoop]

/-- Walking a stack of two parts is walking the upper part, then the lower part
from where that ended, with the links that are left. -/
theorem resolveLoop_append (node : NodeId) (upper lower : List Str) (links : ℕ) :
    resolveLoop fs node (upper ++ lower) links =
      resolveLoop fs node upper links >>= fun r => resolveLoop fs r.1 lower r.2 := by
  induction node, upper, links using resolveLoop.induct with
  | case1 node links => simp [resolveLoop_nil]
  | case2 node links comp pending ihLink ihEntry =>
    rw [List.cons_append, resolveLoop_cons, resolveLoop_cons]
    simp only [bind_assoc]
    congr 1
    funext child
    congr 1
    funext md
    by_cases hsym : md.kind = .symlink
    · by_cases hmax : links + 1 > maxSymlinks
      · simp only [if_pos hsym, if_pos hmax]
        rfl
      · simp only [if_pos hsym, if_neg hmax, bind_assoc]
        congr 1
        funext target
        congr 1
        funext base
        rw [pushComponents, ← List.append_assoc]
        exact ihLink hmax target base
    · simp only [if_neg hsym]
      exact ihEntry child

end Loop

/-- A frontend whose methods are fixed functions that may report errors. -/
structure FixedFrontend where
  root : NodeId
  lookup : NodeId → Str → Except FoldError (Option NodeId)
  readDir : NodeId → Except FoldError (List DirEntry)
  metadata : NodeId → Except FoldError Metadata
  readAt : NodeId → ℕ → List UInt8 → Except FoldError (ℕ × List UInt8)
  readLink : NodeId → Except FoldError (Option (List UInt8))

/-- The calls made so far: the names looked up and the link targets returned. -/
structure Calls where
  lookups : List (NodeId × Str)
  targets : List (List UInt8)

namespace Calls

def empty : Calls := ⟨[], []⟩

def looked (c : Calls) (node : NodeId) (name : Str) : Calls :=
  { c with lookups := c.lookups ++ [(node, name)] }

def got (c : Calls) (target : Option (List UInt8)) : Calls :=
  { c with targets := c.targets ++ target.toList }

/-- The targets followed: those that are strings. -/
def followed (c : Calls) : List Str := c.targets.filterMap fromUtf8

end Calls

def report {α : Type} (x : Except FoldError α) : Outcome α := x.mapError .err

namespace FixedFrontend

variable (f : FixedFrontend)

def frontend : FoldFrontend Calls where
  root _ := f.root
  lookup node name := do
    modify fun c => c.looked node name
    report (f.lookup node name)
  readDir node := report (f.readDir node)
  metadata node := report (f.metadata node)
  readAt node off buf := report (f.readAt node off buf)
  readLink node := do
    let target ← report (f.readLink node)
    modify fun c => c.got target
    return target

/-- What a component leads to from a directory. -/
structure Child (node : NodeId) (comp : Str) (child : NodeId) (md : Metadata) : Prop where
  comp_ne : comp ≠ dotDot
  lookup_eq : f.lookup node comp = .ok (some child)
  metadata_eq : f.metadata child = .ok md

/-- Where the target of a link in the directory `node` starts. -/
def base (node : NodeId) (target : Str) : NodeId :=
  if target.head? = some slash then f.root else node

/-- `Walk n l comps m l'`: the components lead from `n` to `m`, and of the links
followed `l` came before and `l'` include this walk's. The target of a link is
walked to its end first, then the components after the link. -/
inductive Walk : NodeId → ℕ → List Str → NodeId → ℕ → Prop
  | done (node : NodeId) (links : ℕ) : Walk node links [] node links
  | entry {node child last : NodeId} {links used : ℕ} {comp : Str} {rest : List Str}
      {md : Metadata} (hchild : f.Child node comp child md) (hkind : md.kind ≠ .symlink)
      (hrest : Walk child links rest last used) : Walk node links (comp :: rest) last used
  | link {node child mid last : NodeId} {links reached used : ℕ} {comp : Str}
      {rest : List Str} {md : Metadata} {target : Str}
      (hchild : f.Child node comp child md) (hkind : md.kind = .symlink)
      (hlinks : links < maxSymlinks) (hread : f.readLink child = .ok (some target))
      (hutf8 : isUtf8 target = true)
      (htarget : Walk (f.base node target) (links + 1) (components target) mid reached)
      (hrest : Walk mid reached rest last used) : Walk node links (comp :: rest) last used

variable {f}

theorem exec_lookupChild {node child : NodeId} {comp : Str} {s : Calls} (hcomp : comp ≠ dotDot)
    (hlookup : f.lookup node comp = .ok (some child)) :
    exec (lookupChild f.frontend node comp) s = (.ok child, s.looked node comp) := by
  simp only [lookupChild, if_neg hcomp, frontend, exec_bind, exec_modify, exec_lift,
    hlookup, report, Except.mapError, okOr]

theorem exec_linkTarget {child : NodeId} {target : Str} {s : Calls}
    (hread : f.readLink child = .ok (some target)) (hutf8 : isUtf8 target = true) :
    exec (linkTarget f.frontend child) s = (.ok target, s.got target) := by
  simp only [linkTarget, frontend, exec_bind, exec_pure, exec_modify, exec_lift, hread, report,
    Except.mapError, okOr, fromUtf8, if_pos hutf8]

theorem exec_linkBase (node : NodeId) (target : Str) (s : Calls) :
    exec (linkBase f.frontend node target) s = (.ok (f.base node target), s) := by
  unfold linkBase base
  by_cases h : target.head? = some slash
  · rw [if_pos h, if_pos h]
    rfl
  · rw [if_neg h, if_neg h]
    rfl

variable {node child : NodeId} {comp target : Str} {md : Metadata}

theorem exec_entry (hchild : f.Child node comp child md) (hkind : md.kind ≠ .symlink)
    (pending : List Str) (links : ℕ) (s : Calls) :
    exec (resolveLoop f.frontend node (comp :: pending) links) s =
      exec (resolveLoop f.frontend child pending links) (s.looked node comp) := by
  have hmd : exec (f.frontend.metadata child) (s.looked node comp) =
      (.ok md, s.looked node comp) := by
    simp [frontend, hchild.metadata_eq, report, Except.mapError]
  rw [resolveLoop_cons, exec_bind_of_ok (exec_lookupChild hchild.comp_ne hchild.lookup_eq),
    exec_bind_of_ok hmd, if_neg hkind]

theorem exec_link (hchild : f.Child node comp child md) (hkind : md.kind = .symlink)
    {links : ℕ} (hlinks : links < maxSymlinks) (hread : f.readLink child = .ok (some target))
    (hutf8 : isUtf8 target = true) (pending : List Str) (s : Calls) :
    exec (resolveLoop f.frontend node (comp :: pending) links) s =
      exec (resolveLoop f.frontend (f.base node target) (components target ++ pending) (links + 1))
        ((s.looked node comp).got target) := by
  have hmd : exec (f.frontend.metadata child) (s.looked node comp) =
      (.ok md, s.looked node comp) := by
    simp [frontend, hchild.metadata_eq, report, Except.mapError]
  rw [resolveLoop_cons, exec_bind_of_ok (exec_lookupChild hchild.comp_ne hchild.lookup_eq),
    exec_bind_of_ok hmd, if_pos hkind, if_neg (by omega),
    exec_bind_of_ok (exec_linkTarget hread hutf8), exec_bind_of_ok (exec_linkBase _ _ _)]
  rfl

/-- Everything one turn of the loop can do, from calls `s` to the result and
the calls of the whole run. -/
inductive Turn (f : FixedFrontend) (node : NodeId) (comp : Str) (pending : List Str)
    (links : ℕ) (s : Calls) : Outcome (NodeId × ℕ) × Calls → Prop
  | refused (e : FoldError) : Turn f node comp pending links s (fail e, s)
  | missed (e : FoldError) (hcomp : comp ≠ dotDot) :
      Turn f node comp pending links s (fail e, s.looked node comp)
  | entered {child : NodeId} {md : Metadata} (hchild : f.Child node comp child md)
      (hkind : md.kind ≠ .symlink) :
      Turn f node comp pending links s
        (exec (resolveLoop f.frontend child pending links) (s.looked node comp))
  | misread (e : FoldError) (target : List UInt8) (hcomp : comp ≠ dotDot)
      (hlinks : links < maxSymlinks) (hutf8 : ¬ isUtf8 target = true) :
      Turn f node comp pending links s (fail e, (s.looked node comp).got target)
  | followed {child : NodeId} {md : Metadata} {target : Str}
      (hchild : f.Child node comp child md) (hkind : md.kind = .symlink)
      (hlinks : links < maxSymlinks) (hread : f.readLink child = .ok (some target))
      (hutf8 : isUtf8 target = true) :
      Turn f node comp pending links s
        (exec (resolveLoop f.frontend (f.base node target) (components target ++ pending)
          (links + 1)) ((s.looked node comp).got target))

theorem turn (node : NodeId) (comp : Str) (pending : List Str) (links : ℕ) (s : Calls) :
    Turn f node comp pending links s
      (exec (resolveLoop f.frontend node (comp :: pending) links) s) := by
  by_cases hcomp : comp = dotDot
  · have h : exec (lookupChild f.frontend node comp) s =
        (fail (.invalidPath "'..' not supported"), s) := by
      rw [lookupChild, if_pos hcomp]
      rfl
    rw [resolveLoop_cons, exec_bind_of_error h]
    exact .refused _
  rcases hlookup : f.lookup node comp with e | _ | child
  · have h : exec (lookupChild f.frontend node comp) s = (fail e, s.looked node comp) := by
      simp [lookupChild, hcomp, frontend, exec_bind, hlookup, report, Except.mapError, fail]
    rw [resolveLoop_cons, exec_bind_of_error h]
    exact .missed e hcomp
  · have h : exec (lookupChild f.frontend node comp) s =
        (fail .notFound, s.looked node comp) := by
      simp [lookupChild, hcomp, frontend, exec_bind, hlookup, report, Except.mapError, okOr, fail]
    rw [resolveLoop_cons, exec_bind_of_error h]
    exact .missed _ hcomp
  have hfound := exec_lookupChild (s := s) hcomp hlookup
  rcases hmd : f.metadata child with e | md
  · have h : exec (f.frontend.metadata child) (s.looked node comp) =
        (fail e, s.looked node comp) := by
      simp [frontend, hmd, report, Except.mapError, fail]
    rw [resolveLoop_cons, exec_bind_of_ok hfound, exec_bind_of_error h]
    exact .missed e hcomp
  have hchild : f.Child node comp child md := ⟨hcomp, hlookup, hmd⟩
  by_cases hkind : md.kind = .symlink
  case neg =>
    rw [exec_entry hchild hkind]
    exact .entered hchild hkind
  have hmd : exec (f.frontend.metadata child) (s.looked node comp) =
      (.ok md, s.looked node comp) := by
    simp [frontend, hmd, report, Except.mapError]
  by_cases hlinks : links + 1 > maxSymlinks
  · rw [resolveLoop_cons, exec_bind_of_ok hfound, exec_bind_of_ok hmd, if_pos hkind, if_pos hlinks]
    exact .missed _ hcomp
  rcases hread : f.readLink child with e | _ | target
  · have h : exec (linkTarget f.frontend child) (s.looked node comp) =
        (fail e, s.looked node comp) := by
      simp [linkTarget, frontend, exec_bind, hread, report, Except.mapError, fail]
    rw [resolveLoop_cons, exec_bind_of_ok hfound, exec_bind_of_ok hmd, if_pos hkind,
      if_neg hlinks, exec_bind_of_error h]
    exact .missed e hcomp
  · have h : exec (linkTarget f.frontend child) (s.looked node comp) =
        (fail (.corrupt "symlink without a target"), s.looked node comp) := by
      simp [linkTarget, frontend, exec_bind, hread, report, Except.mapError, fail, okOr, Calls.got]
    rw [resolveLoop_cons, exec_bind_of_ok hfound, exec_bind_of_ok hmd, if_pos hkind,
      if_neg hlinks, exec_bind_of_error h]
    exact .missed _ hcomp
  by_cases hutf8 : isUtf8 target = true
  · rw [exec_link hchild hkind (by omega) hread hutf8]
    exact .followed hchild hkind (by omega) hread hutf8
  · have h : exec (linkTarget f.frontend child) (s.looked node comp) =
        (fail (.invalidPath "non-UTF-8 symlink"), (s.looked node comp).got target) := by
      simp [linkTarget, frontend, exec_bind, hread, report, Except.mapError, fail, okOr, fromUtf8,
        hutf8]
    rw [resolveLoop_cons, exec_bind_of_ok hfound, exec_bind_of_ok hmd, if_pos hkind,
      if_neg hlinks, exec_bind_of_error h]
    exact .misread _ target hcomp (by omega) hutf8

/-- What a run of the loop from `s` to `t` may add to the calls, and that its
result is a node or a reported error. -/
structure Accounts (pending links : ℕ) (s t : Calls) (r : Outcome (NodeId × ℕ)) : Prop where
  lookups : ∃ calls, t.lookups = s.lookups ++ calls ∧ ∀ call ∈ calls, IsName call.2
  targets : ∃ read, t.targets = s.targets ++ read ∧ read.length + links ≤ max links maxSymlinks
  count : t.lookups.length + (s.followed.map fun target => (components target).length).sum ≤
    s.lookups.length + pending +
      (t.followed.map fun target => (components target).length).sum
  reported : ∃ x, r = report x

/-- A run whose first turn looked up a name and leaves it to `t` to account for
the rest. -/
theorem Accounts.looked {pending links : ℕ} {s t : Calls} {r : Outcome (NodeId × ℕ)}
    (hname : IsName comp) (h : Accounts pending links (s.looked node comp) t r) :
    Accounts (pending + 1) links s t r := by
  obtain ⟨calls, hlookups, hcalls⟩ := h.lookups
  refine ⟨⟨(node, comp) :: calls, ?_, ?_⟩, h.targets, ?_, h.reported⟩
  · rw [hlookups, Calls.looked, List.append_assoc]
    rfl
  · intro call hcall
    rcases List.mem_cons.mp hcall with rfl | hcall
    · exact hname
    · exact hcalls call hcall
  · have hcount := h.count
    simp only [Calls.looked, Calls.followed, List.length_append, List.length_singleton] at hcount ⊢
    omega

theorem Accounts.stop (pending links : ℕ) (s : Calls) (x : Except FoldError (NodeId × ℕ)) :
    Accounts pending links s s (report x) := by
  refine ⟨⟨[], by simp, by simp⟩, ⟨[], by simp, ?_⟩, by omega, ⟨x, rfl⟩⟩
  exact (Nat.zero_add links).le.trans (Nat.le_max_left links maxSymlinks)

theorem accounts (node : NodeId) (pending : List Str) (links : ℕ) (s : Calls)
    (hpending : ∀ c ∈ pending, c ≠ dotDot → IsName c) :
    Accounts pending.length links s (exec (resolveLoop f.frontend node pending links) s).2
      (exec (resolveLoop f.frontend node pending links) s).1 := by
  induction node, pending, links using resolveLoop.induct generalizing s with
  | case1 node links =>
    rw [resolveLoop_nil]
    exact .stop 0 links s (.ok (node, links))
  | case2 node links comp pending ihLink ihEntry =>
    have hrest : ∀ c ∈ pending, c ≠ dotDot → IsName c := fun c hc =>
      hpending c (List.mem_cons_of_mem comp hc)
    have hname : comp ≠ dotDot → IsName comp := hpending comp List.mem_cons_self
    have hturn := turn (f := f) node comp pending links s
    rw [List.length_cons]
    generalize exec (resolveLoop f.frontend node (comp :: pending) links) s = run at hturn ⊢
    cases hturn with
    | refused e => exact .stop _ _ _ (.error e)
    | missed e hcomp => exact .looked (hname hcomp) (.stop _ _ _ (.error e))
    | entered hchild hkind =>
      exact .looked (hname hchild.comp_ne) (ihEntry _ _ hrest)
    | misread e target hcomp hlinks hutf8 =>
      refine .looked (hname hcomp) ⟨⟨[], by simp [Calls.got], by simp⟩, ⟨[target], rfl, ?_⟩, ?_,
        ⟨.error e, rfl⟩⟩
      · simp only [List.length_singleton]
        omega
      · simp only [Calls.followed, Calls.got, Option.toList_some, List.filterMap_append,
          List.filterMap_cons, List.filterMap_nil, fromUtf8, if_neg hutf8, List.append_nil]
        omega
    | @followed child md target hchild hkind hlinks hread hutf8 =>
      have hall : ∀ c ∈ components target ++ pending, c ≠ dotDot → IsName c := by
        intro c hc hdd
        rcases List.mem_append.mp hc with hc | hc
        · exact isName_of_mem_components hc hdd
        · exact hrest c hc hdd
      have h := ihLink (by omega) target (f.base node target)
        ((s.looked node comp).got target) hall
      refine .looked (hname hchild.comp_ne) ⟨h.lookups, ?_, ?_, h.reported⟩
      · obtain ⟨read, hread', hle⟩ := h.targets
        refine ⟨target :: read, ?_, ?_⟩
        · rw [pushComponents] at hread'
          rw [hread', Calls.got, List.append_assoc]
          rfl
        · simp only [List.length_cons]
          omega
      · have hcount := h.count
        simp only [Calls.followed, Calls.got, Option.toList_some, List.filterMap_append,
          List.filterMap_cons, List.filterMap_nil, fromUtf8, if_pos hutf8, List.map_append,
          List.map_cons, List.map_nil, List.sum_append, List.sum_cons, List.sum_nil,
          pushComponents, List.length_append] at hcount ⊢
        omega

/-- The links of a walk stay within the budget. -/
theorem Walk.used_le {node last : NodeId} {links used : ℕ} {comps : List Str}
    (h : f.Walk node links comps last used) : used ≤ max links maxSymlinks := by
  induction h with
  | done node links => exact Nat.le_max_left links maxSymlinks
  | entry hchild hkind hrest ih => exact ih
  | link hchild hkind hlinks hread hutf8 htarget hrest ihTarget ihRest => omega

/-- A walk over two parts passes the node where the upper part ends. -/
theorem Walk.split {node last : NodeId} {links used : ℕ} {upper lower : List Str}
    (h : f.Walk node links (upper ++ lower) last used) :
    ∃ mid reached, f.Walk node links upper mid reached ∧ f.Walk mid reached lower last used := by
  induction upper generalizing node links with
  | nil => exact ⟨node, links, .done node links, h⟩
  | cons comp upper ih =>
    cases h with
    | entry hchild hkind hrest =>
      obtain ⟨mid, reached, hupper, hlower⟩ := ih hrest
      exact ⟨mid, reached, .entry hchild hkind hupper, hlower⟩
    | link hchild hkind hlinks hread hutf8 htarget hrest =>
      obtain ⟨mid, reached, hupper, hlower⟩ := ih hrest
      exact ⟨mid, reached, .link hchild hkind hlinks hread hutf8 htarget hupper, hlower⟩

theorem walk_of_resolveLoop (node : NodeId) (pending : List Str) (links : ℕ) (s : Calls)
    {last : NodeId} {used : ℕ}
    (h : (exec (resolveLoop f.frontend node pending links) s).1 = .ok (last, used)) :
    f.Walk node links pending last used := by
  induction node, pending, links using resolveLoop.induct generalizing s with
  | case1 node links =>
    rw [resolveLoop_nil] at h
    obtain ⟨rfl, rfl⟩ : node = last ∧ links = used := by simpa using h
    exact .done node links
  | case2 node links comp pending ihLink ihEntry =>
    have hturn := turn (f := f) node comp pending links s
    generalize exec (resolveLoop f.frontend node (comp :: pending) links) s = run at hturn h
    cases hturn with
    | refused e => exact absurd h (fail_ne_ok e _)
    | missed e hcomp => exact absurd h (fail_ne_ok e _)
    | entered hchild hkind => exact .entry hchild hkind (ihEntry _ _ h)
    | misread e target hcomp hlinks hutf8 => exact absurd h (fail_ne_ok e _)
    | followed hchild hkind hlinks hread hutf8 =>
      obtain ⟨mid, reached, htarget, hrest⟩ := (ihLink (by omega) _ _ _ h).split
      exact .link hchild hkind hlinks hread hutf8 htarget hrest

theorem resolveLoop_of_walk {node last : NodeId} {links used : ℕ} {comps : List Str}
    (h : f.Walk node links comps last used) (s : Calls) :
    (exec (resolveLoop f.frontend node comps links) s).1 = .ok (last, used) := by
  induction h generalizing s with
  | done node links =>
    rw [resolveLoop_nil]
    rfl
  | entry hchild hkind hrest ih =>
    rw [exec_entry hchild hkind]
    exact ih _
  | @link node child mid last links reached used comp rest md target hchild hkind hlinks hread
      hutf8 htarget hrest ihTarget ihRest =>
    rw [exec_link hchild hkind hlinks hread hutf8, resolveLoop_append]
    have hmid := ihTarget ((s.looked node comp).got target)
    rw [exec_bind_of_ok (Prod.ext hmid rfl)]
    exact ihRest _

def IsLink (f : FixedFrontend) (node : NodeId) : Prop :=
  ∃ md, f.metadata node = .ok md ∧ md.kind = .symlink

/-- A walk ends where it starts, at the root, or at a node that is not a link. -/
theorem Walk.last_cases {node last : NodeId} {links used : ℕ} {comps : List Str}
    (h : f.Walk node links comps last used) :
    last = node ∨ last = f.root ∨ ¬ f.IsLink last := by
  induction h with
  | done node links => exact Or.inl rfl
  | @entry node child last links used comp rest md hchild hkind hrest ih =>
    rcases ih with rfl | ih
    · refine Or.inr (Or.inr ?_)
      rintro ⟨md', hmd', hkind'⟩
      rw [hchild.metadata_eq] at hmd'
      cases hmd'
      exact hkind hkind'
    · exact Or.inr ih
  | @link node child mid last links reached used comp rest md target hchild hkind hlinks hread
      hutf8 htarget hrest ihTarget ihRest =>
    have hbase : f.base node target = node ∨ f.base node target = f.root := by
      unfold base
      by_cases h : target.head? = some slash
      · exact Or.inr (if_pos h)
      · exact Or.inl (if_neg h)
    rcases ihRest with rfl | ihRest
    · rcases ihTarget with rfl | ihTarget
      · rcases hbase with hbase | hbase
        · exact Or.inl hbase
        · exact Or.inr (Or.inl hbase)
      · exact Or.inr ihTarget
    · exact Or.inr ihRest

theorem exec_resolve (path : Str) (s : Calls) :
    exec (resolve f.frontend path) s =
      match exec (resolveLoop f.frontend f.root (components path) 0) s with
      | (.ok (node, _), t) => (.ok node, t)
      | (.error e, t) => (.error e, t) := by
  have hget : exec (get : Method Calls Calls) s = (.ok s, s) := rfl
  have hroot : f.frontend.root s = f.root := rfl
  rw [resolve, exec_bind_of_ok hget, exec_bind, resolveFrom, pushComponents, List.append_nil, hroot]
  rcases exec (resolveLoop f.frontend f.root (components path) 0) s with ⟨e | r, t⟩ <;> rfl

theorem resolve_eq_ok_iff {path : Str} {last : NodeId} (s : Calls) :
    (exec (resolve f.frontend path) s).1 = .ok last ↔
      ∃ used, f.Walk f.root 0 (components path) last used := by
  rw [exec_resolve]
  rcases h : exec (resolveLoop f.frontend f.root (components path) 0) s with ⟨e | ⟨node, used⟩, t⟩
  · simp only [reduceCtorEq, false_iff, not_exists]
    intro used hwalk
    have hok := resolveLoop_of_walk hwalk s
    simp [h] at hok
  · have hwalk := walk_of_resolveLoop f.root (components path) 0 s (congrArg Prod.fst h)
    constructor
    · intro hlast
      obtain rfl : node = last := Except.ok.inj hlast
      exact ⟨used, hwalk⟩
    · rintro ⟨used', hwalk'⟩
      have hok := resolveLoop_of_walk hwalk' s
      simp only [h, Except.ok.injEq, Prod.mk.injEq] at hok
      exact congrArg Except.ok hok.1

/-- What is asked of the resolution of one path, with the result and the calls
of its run. -/
structure Resolves (f : FixedFrontend) (path : Str) (result : Outcome NodeId) (calls : Calls) :
    Prop where
  /-- The run ends with a node or a reported error. -/
  terminates : ∃ x, result = report x
  targets_le : calls.targets.length ≤ maxSymlinks
  lookups_le : calls.lookups.length ≤ (components path).length +
    (calls.followed.map fun target => (components target).length).sum
  names : ∀ call ∈ calls.lookups, IsName call.2
  /-- The node is the one the recursive walk reaches within the budget. -/
  walk : ∀ node, result = .ok node ↔
    ∃ used ≤ maxSymlinks, f.Walk f.root 0 (components path) node used
  not_link : ∀ node, result = .ok node → f.IsLink node → f.IsLink f.root

theorem resolves (path : Str) :
    Resolves f path (exec (resolve f.frontend path) .empty).1
      (exec (resolve f.frontend path) .empty).2 := by
  have h := accounts (f := f) f.root (components path) 0 .empty
    fun c hc => isName_of_mem_components hc
  have hwalk := fun node => @resolve_eq_ok_iff f path node .empty
  have hcalls : (exec (resolve f.frontend path) .empty).2 =
      (exec (resolveLoop f.frontend f.root (components path) 0) .empty).2 := by
    rw [exec_resolve]
    rcases exec (resolveLoop f.frontend f.root (components path) 0) .empty with ⟨e | r, t⟩ <;> rfl
  refine ⟨?_, ?_, ?_, ?_, ?_, ?_⟩
  · obtain ⟨x, hx⟩ := h.reported
    rw [exec_resolve]
    rcases hrun : exec (resolveLoop f.frontend f.root (components path) 0) .empty with ⟨e | r, t⟩
    · rw [hrun] at hx
      rcases x with e' | r
      · exact ⟨.error e', by simpa [report, Except.mapError] using hx⟩
      · exact absurd hx (by simp [report, Except.mapError])
    · exact ⟨.ok r.1, rfl⟩
  · obtain ⟨read, hread, hle⟩ := h.targets
    rw [hcalls, hread]
    simpa [Calls.empty] using hle
  · have hcount := h.count
    rw [hcalls]
    simpa [Calls.empty, Calls.followed] using hcount
  · obtain ⟨calls, hlookups, hnames⟩ := h.lookups
    rw [hcalls, hlookups]
    simpa [Calls.empty] using hnames
  · intro node
    rw [hwalk node]
    constructor
    · rintro ⟨used, hused⟩
      exact ⟨used, by simpa using hused.used_le, hused⟩
    · rintro ⟨used, -, hused⟩
      exact ⟨used, hused⟩
  · intro node hok hlink
    obtain ⟨used, hused⟩ := (hwalk node).mp hok
    rcases hused.last_cases with rfl | rfl | hnot
    · exact hlink
    · exact hlink
    · exact absurd hlink hnot

/-- Resolving `p/q` resolves `p` to its end and then `q` from there, with the
links that `p` left. -/
theorem resolve_append (p q : Str) :
    resolve f.frontend (p ++ slash :: q) = (do
      let mid ← resolveFrom f.frontend f.root p 0
      let last ← resolveFrom f.frontend mid.1 q mid.2
      return last.1) := by
  have hroot : ∀ s : Calls, f.frontend.root s = f.root := fun _ => rfl
  unfold resolve resolveFrom pushComponents
  simp only [hroot, components_append, List.append_nil, resolveLoop_append, bind_assoc]
  rfl

/-- Resolution of every path over every fixed frontend: what it calls, where it
ends, and how it composes. -/
theorem resolve_correct (f : FixedFrontend) (path : Str) :
    Resolves f path (exec (resolve f.frontend path) .empty).1
        (exec (resolve f.frontend path) .empty).2 ∧
      ∀ p q, path = p ++ slash :: q →
        resolve f.frontend path = (do
          let mid ← resolveFrom f.frontend f.root p 0
          let last ← resolveFrom f.frontend mid.1 q mid.2
          return last.1) :=
  ⟨resolves path, fun p q h => h ▸ resolve_append p q⟩

end FixedFrontend

end Lamfold.Path
