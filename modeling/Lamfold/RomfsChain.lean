import Lamfold.Romfs

/-!
The chains of a romfs directory. A listing is exact when it has the headers of a
chain that ends; the walk is bounded, so a chain that does not end within the
bound is listed up to it as if it did.
-/
namespace Lamfold.Romfs

open Effects

variable {src : Source}

/-- The hard links from the header at `off` on lead in `hops` steps to the header
`target` at `node`, which is none. -/
inductive LinksTo (src : Source) : ℕ → ℕ → ℕ → Header → Prop
  | here {off : ℕ} {h : Header} (hread : readHeader src off = .ok h)
      (hkind : h.ftype ≠ ftHardlink) : LinksTo src 0 off off h
  | hop {hops off node : ℕ} {h target : Header} (hread : readHeader src off = .ok h)
      (hkind : h.ftype = ftHardlink) (hrest : LinksTo src hops h.info node target) :
      LinksTo src (hops + 1) off node target

/-- The same within the bound on hops. -/
def Resolves (src : Source) (off node : ℕ) (target : Header) : Prop :=
  ∃ hops ≤ maxLinkHops, LinksTo src hops off node target

/-- The headers, with their offsets, that next offsets lead to from `o` on, up to
the zero that ends the chain. -/
inductive NextChain (src : Source) : ℕ → List (ℕ × Header) → Prop
  | stop : NextChain src 0 []
  | next {o : ℕ} {h : Header} {rest : List (ℕ × Header)} (ho : o ≠ 0)
      (hread : readHeader src o = .ok h) (hrest : NextChain src h.nextOff rest) :
      NextChain src o ((o, h) :: rest)

/-- Neither `.` nor `..`. -/
abbrev Header.Listed (h : Header) : Prop :=
  h.name ≠ [0x2E] ∧ h.name ≠ [0x2E, 0x2E]

/-- An entry has the name of its header, and the node and kind of the header its
hard links lead to. -/
def EntryOf (src : Source) (header : ℕ × Header) (e : DirEntry) : Prop :=
  e.name = header.2.name ∧
    ∃ target, Resolves src header.1 e.node target ∧ e.kind = kind target.ftype

/-- Entries for exactly the headers of a chain, each once and in order. -/
def Lists (src : Source) (chain : List (ℕ × Header)) (entries : List DirEntry) : Prop :=
  (chain.map Prod.fst).Nodup ∧
    List.Forall₂ (EntryOf src) (chain.filter fun header => header.2.Listed) entries

/-- A listing of the whole chain of a directory, which ends within the bound. -/
def ExactListing (src : Source) (dir : NodeId) (entries : List DirEntry) : Prop :=
  ∃ node head chain, Resolves src dir node head ∧ head.ftype = ftDirectory ∧
    NextChain src head.info chain ∧ chain.length ≤ maxHeaders ∧ Lists src chain entries

/-- The first `bound` headers from `o` on can be read, the listed ones lead to a
header, and the chain goes on after them. -/
inductive Outlasts (src : Source) : ℕ → ℕ → Prop
  | cut {o : ℕ} (ho : o ≠ 0) : Outlasts src 0 o
  | next {bound o : ℕ} {h : Header} (ho : o ≠ 0) (hread : readHeader src o = .ok h)
      (hlink : h.Listed → ∃ node target, Resolves src o node target)
      (hrest : Outlasts src bound h.nextOff) : Outlasts src (bound + 1) o

/-- The chain of a directory goes on after the headers the walk looks at. -/
def ChainCut (src : Source) (dir : NodeId) : Prop :=
  ∃ node head, Resolves src dir node head ∧ head.ftype = ftDirectory ∧
    Outlasts src maxHeaders head.info

theorem followLinks_eq_ok {hops off node : ℕ} {target : Header} :
    followLinks src hops off = .ok (node, target) ↔
      ∃ n < hops, LinksTo src n off node target := by
  induction hops generalizing off with
  | zero =>
    constructor
    · intro h
      exact absurd h (fail_ne_ok _ _)
    · rintro ⟨n, hn, -⟩
      exact absurd hn (Nat.not_lt_zero n)
  | succ hops ih =>
    rw [followLinks, bind_eq_ok]
    constructor
    · rintro ⟨h, hread, hrun⟩
      by_cases hkind : h.ftype = ftHardlink
      · rw [if_neg (not_not.mpr hkind)] at hrun
        obtain ⟨n, hn, hlinks⟩ := ih.mp hrun
        exact ⟨n + 1, by omega, .hop hread hkind hlinks⟩
      · rw [if_pos hkind] at hrun
        cases hrun
        exact ⟨0, Nat.succ_pos hops, .here hread hkind⟩
    · rintro ⟨n, hn, hlinks⟩
      cases hlinks with
      | here hread hkind => exact ⟨target, hread, if_pos hkind⟩
      | hop hread hkind hrest =>
        refine ⟨_, hread, ?_⟩
        rw [if_neg (not_not.mpr hkind)]
        exact ih.mpr ⟨_, by omega, hrest⟩

theorem resolvedHeader_eq_ok {off node : ℕ} {target : Header} :
    resolvedHeader src off = .ok (node, target) ↔ Resolves src off node target := by
  unfold resolvedHeader Resolves
  rw [followLinks_eq_ok]
  simp only [Nat.lt_succ_iff]

theorem Resolves.unique {off node node' : ℕ} {target target' : Header}
    (h : Resolves src off node target) (h' : Resolves src off node' target') :
    node = node' ∧ target = target' := by
  have heq := (resolvedHeader_eq_ok.mpr h).symm.trans (resolvedHeader_eq_ok.mpr h')
  exact Prod.mk.inj (Except.ok.inj heq)

theorem NextChain.unique {o : ℕ} {chain chain' : List (ℕ × Header)} (h : NextChain src o chain)
    (h' : NextChain src o chain') : chain = chain' := by
  induction h generalizing chain' with
  | stop =>
    cases h' with
    | stop => rfl
    | next ho => exact absurd rfl ho
  | next ho hread _ ih =>
    cases h' with
    | stop => exact absurd rfl ho
    | next _ hread' hrest' =>
      obtain rfl := Except.ok.inj (hread.symm.trans hread')
      rw [ih hrest']

theorem NextChain.from_mem {o p : ℕ} {chain : List (ℕ × Header)} (h : NextChain src o chain)
    (hp : p ∈ chain.map Prod.fst) :
    ∃ rest, NextChain src p rest ∧ rest.length ≤ chain.length := by
  induction h with
  | stop => simp at hp
  | next ho hread hrest ih =>
    rw [List.map_cons, List.mem_cons] at hp
    rcases hp with rfl | hp
    · exact ⟨_, .next ho hread hrest, Nat.le_refl _⟩
    · obtain ⟨rest, hchain, hle⟩ := ih hp
      exact ⟨rest, hchain, Nat.le_succ_of_le hle⟩

/-- A chain that ends meets no header twice. -/
theorem NextChain.nodup {o : ℕ} {chain : List (ℕ × Header)} (h : NextChain src o chain) :
    (chain.map Prod.fst).Nodup := by
  induction h with
  | stop => exact List.nodup_nil
  | next ho hread hrest ih =>
    refine List.nodup_cons.mpr ⟨?_, ih⟩
    intro hmem
    obtain ⟨again, hagain, hle⟩ := hrest.from_mem hmem
    rw [hagain.unique (.next ho hread hrest), List.length_cons] at hle
    omega

/-- A chain that ends within the bound does not outlast it. -/
theorem NextChain.not_outlasts {o bound : ℕ} {chain : List (ℕ × Header)}
    (h : NextChain src o chain) (hlen : chain.length ≤ bound) : ¬ Outlasts src bound o := by
  intro hout
  induction h generalizing bound with
  | stop =>
    cases hout with
    | cut ho => exact ho rfl
    | next ho => exact ho rfl
  | next ho hread hrest ih =>
    cases hout with
    | cut => exact absurd hlen (Nat.not_succ_le_zero _)
    | next _ hread' _ hout =>
      obtain rfl := Except.ok.inj (hread.symm.trans hread')
      exact ih (Nat.le_of_succ_le_succ hlen) hout

theorem readChain_succ {bound o : ℕ} {h : Header} (ho : o ≠ 0)
    (hread : readHeader src o = .ok h) :
    readChain src (bound + 1) o =
      if h.Listed then do
        let found ← resolvedHeader src o
        let rest ← readChain src bound h.nextOff
        return ⟨h.name, found.1, kind found.2.ftype⟩ :: rest
      else readChain src bound h.nextOff := by
  rw [readChain, if_neg ho, hread, ok_bind]

/-- A listing has the entries of a chain that ends, unless the chain outlasts the
bound. -/
theorem readChain_spec {bound o : ℕ} {entries : List DirEntry}
    (h : readChain src bound o = .ok entries) :
    (∃ chain, NextChain src o chain ∧ chain.length ≤ bound ∧
      List.Forall₂ (EntryOf src) (chain.filter fun header => header.2.Listed) entries) ∨
      Outlasts src bound o := by
  induction bound generalizing o entries with
  | zero =>
    obtain rfl := Except.ok.inj h
    by_cases ho : o = 0
    · subst ho
      exact .inl ⟨[], .stop, Nat.le_refl _, .nil⟩
    · exact .inr (.cut ho)
  | succ bound ih =>
    by_cases ho : o = 0
    · subst ho
      obtain rfl := Except.ok.inj h
      exact .inl ⟨[], .stop, Nat.zero_le _, .nil⟩
    · have hrun := h
      rw [readChain, if_neg ho] at hrun
      obtain ⟨header, hread, -⟩ := bind_eq_ok.mp hrun
      rw [readChain_succ ho hread] at h
      by_cases hlisted : header.Listed
      · rw [if_pos hlisted] at h
        obtain ⟨found, hfound, h⟩ := bind_eq_ok.mp h
        obtain ⟨rest, hrest, h⟩ := bind_eq_ok.mp h
        obtain rfl := Except.ok.inj h
        have hresolves := resolvedHeader_eq_ok.mp hfound
        rcases ih hrest with ⟨chain, hchain, hlen, hentries⟩ | hout
        · refine .inl ⟨(o, header) :: chain, .next ho hread hchain, Nat.succ_le_succ hlen, ?_⟩
          rw [List.filter_cons_of_pos (by exact decide_eq_true hlisted)]
          exact .cons ⟨rfl, found.2, hresolves, rfl⟩ hentries
        · exact .inr (.next ho hread (fun _ => ⟨_, _, hresolves⟩) hout)
      · rw [if_neg hlisted] at h
        rcases ih h with ⟨chain, hchain, hlen, hentries⟩ | hout
        · refine .inl ⟨(o, header) :: chain, .next ho hread hchain, Nat.succ_le_succ hlen, ?_⟩
          rw [List.filter_cons_of_neg (by simpa using hlisted)]
          exact hentries
        · exact .inr (.next ho hread (fun hin => absurd hin hlisted) hout)

/-- A chain that outlasts the bound is listed up to it. -/
theorem Outlasts.readChain_ok {bound o : ℕ} (h : Outlasts src bound o) :
    ∃ entries, readChain src bound o = .ok entries := by
  induction h with
  | cut ho => exact ⟨[], rfl⟩
  | @next bound o h ho hread hlink _ ih =>
    obtain ⟨rest, hrest⟩ := ih
    rw [readChain_succ ho hread]
    by_cases hlisted : h.Listed
    · obtain ⟨node, target, hresolves⟩ := hlink hlisted
      rw [if_pos hlisted, resolvedHeader_eq_ok.mpr hresolves, ok_bind, hrest, ok_bind]
      exact ⟨_, rfl⟩
    · rw [if_neg hlisted]
      exact ⟨rest, hrest⟩

theorem readDir_eq_ok {r : Romfs} {dir : NodeId} {entries : List DirEntry} :
    r.readDir dir = .ok entries ↔
      ∃ node head, Resolves r.src dir node head ∧ head.ftype = ftDirectory ∧
        readChain r.src maxHeaders head.info = .ok entries := by
  unfold readDir
  rw [bind_eq_ok]
  constructor
  · rintro ⟨⟨node, head⟩, hhead, h⟩
    obtain ⟨hkind, h⟩ := ite_error_eq_ok.mp h
    exact ⟨node, head, resolvedHeader_eq_ok.mp hhead, not_not.mp hkind, h⟩
  · rintro ⟨node, head, hhead, hkind, h⟩
    exact ⟨(node, head), resolvedHeader_eq_ok.mpr hhead,
      ite_error_eq_ok.mpr ⟨not_not.mpr hkind, h⟩⟩

theorem ChainCut.not_exact {dir : NodeId} {entries : List DirEntry} (h : ChainCut src dir) :
    ¬ ExactListing src dir entries := by
  obtain ⟨node, head, hhead, -, hout⟩ := h
  rintro ⟨node', head', chain, hhead', -, hchain, hlen, -⟩
  obtain ⟨-, rfl⟩ := hhead.unique hhead'
  exact hchain.not_outlasts hlen hout

/-- The listings of a directory are exact exactly when its chain is not cut by the
bound of the walk. -/
theorem readDir_exact_iff (r : Romfs) (dir : NodeId) :
    (∀ entries, r.readDir dir = .ok entries → ExactListing r.src dir entries) ↔
      ¬ ChainCut r.src dir := by
  constructor
  · intro hexact hcut
    obtain ⟨node, head, hhead, hkind, hout⟩ := hcut
    obtain ⟨entries, hentries⟩ := hout.readChain_ok
    have hdir : r.readDir dir = .ok entries :=
      readDir_eq_ok.mpr ⟨node, head, hhead, hkind, hentries⟩
    exact ChainCut.not_exact ⟨node, head, hhead, hkind, hout⟩ (hexact entries hdir)
  · intro hcut entries h
    obtain ⟨node, head, hhead, hkind, h⟩ := readDir_eq_ok.mp h
    rcases readChain_spec h with ⟨chain, hchain, hlen, hentries⟩ | hout
    · exact ⟨node, head, chain, hhead, hkind, hchain, hlen, hchain.nodup, hentries⟩
    · exact absurd ⟨node, head, hhead, hkind, hout⟩ hcut

/-- A volume whose root directory, at 32, starts its chain with the empty file `a`
at 64, and `a` names itself as the header after it. -/
def selfChained : Source where
  content := magic ++ List.replicate 24 0 ++
    [0, 0, 0, 1, 0, 0, 0, 64, 0, 0, 0, 0, 0, 0, 0, 0, 0x2E] ++ List.replicate 15 0 ++
    [0, 0, 0, 66, 0, 0, 0, 0, 0, 0, 0, 0, 0, 0, 0, 0, 0x61] ++ List.replicate 15 0
  length_lt := by decide

theorem readHeader_selfChained :
    readHeader selfChained 64 = .ok ⟨64, ftRegular, 0, 0, [0x61], 96⟩ := by decide +kernel

theorem selfChained_outlasts (bound : ℕ) : Outlasts selfChained bound 64 := by
  induction bound with
  | zero => exact .cut (by decide)
  | succ bound ih =>
    refine .next (by decide) readHeader_selfChained ?_ ih
    exact fun _ => ⟨64, _, 0, Nat.zero_le _, .here readHeader_selfChained (by decide)⟩

theorem readChain_selfChained (bound : ℕ) :
    readChain selfChained bound 64 = .ok (List.replicate bound ⟨[0x61], 64, .regular⟩) := by
  have hfound : resolvedHeader selfChained 64 = .ok (64, ⟨64, ftRegular, 0, 0, [0x61], 96⟩) :=
    resolvedHeader_eq_ok.mpr ⟨0, Nat.zero_le _, .here readHeader_selfChained (by decide)⟩
  induction bound with
  | zero => rfl
  | succ bound ih =>
    rw [readChain_succ (by decide) readHeader_selfChained, if_pos (by decide), hfound, ok_bind, ih]
    rfl

/-- The chain of one header that follows itself is listed a million times. -/
theorem readDir_selfChained :
    mount selfChained = .ok ⟨selfChained, 32⟩ ∧
      readDir ⟨selfChained, 32⟩ 32 =
        .ok (List.replicate maxHeaders ⟨[0x61], 64, .regular⟩) ∧
      ¬ ExactListing selfChained 32 (List.replicate maxHeaders ⟨[0x61], 64, .regular⟩) := by
  have hroot : readHeader selfChained 32 = .ok ⟨0, ftDirectory, 64, 0, [0x2E], 64⟩ := by
    decide +kernel
  have hhead : Resolves selfChained 32 32 ⟨0, ftDirectory, 64, 0, [0x2E], 64⟩ :=
    ⟨0, Nat.zero_le _, .here hroot (by decide)⟩
  refine ⟨by decide +kernel, ?_, ?_⟩
  · exact readDir_eq_ok.mpr ⟨32, _, hhead, rfl, readChain_selfChained maxHeaders⟩
  · exact ChainCut.not_exact ⟨32, _, hhead, rfl, selfChained_outlasts maxHeaders⟩

end Lamfold.Romfs
