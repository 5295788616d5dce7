import Lamfold.Cpio
import Lamfold.PathTree

/-!
The node table of a mounted archive represents a tree of paths. Every node has a
path as its label, and inserting a record plants its entry in that tree.
-/
namespace Lamfold.Cpio

open Effects PathTree

def Node.entry (n : Node) : Entry := ⟨n.kind, n.mode, n.data⟩

/-- Missing directories are implied, and only a record of another kind replaces
what its path holds. -/
def insertRule : Rule Entry where
  implied := (Node.dir 0o755).entry
  wins e := e.kind ≠ .directory

structure Represents (nodes : List Node) (label : ℕ → List Str) (tree : Tree Str Entry) :
    Prop where
  nonempty : 0 < nodes.length
  root : label 0 = []
  entry : ∀ (i : ℕ) n, nodes[i]? = some n → tree (label i) = some n.entry
  inj : ∀ i j : ℕ, i < nodes.length → j < nodes.length → label i = label j → i = j
  child : ∀ (i : ℕ) n name (c : ℕ), nodes[i]? = some n → n.children[name]? = some c →
    c < nodes.length ∧ label c = label i ++ [name]
  absent : ∀ (i : ℕ) n name, nodes[i]? = some n → n.children[name]? = none →
    tree (label i ++ [name]) = none
  closed : Closed tree

/-- The tree of a lone root. -/
def rootTree : Tree Str Entry := fun p => if p = [] then some insertRule.implied else none

theorem represents_root : Represents [Node.dir 0o755] (fun _ => []) rootTree where
  nonempty := Nat.one_pos
  root := rfl
  entry i n hn := by
    obtain ⟨-, rfl⟩ : i = 0 ∧ Node.dir 0o755 = n := by simpa [List.getElem?_singleton] using hn
    rfl
  inj i j hi hj _ := by
    simp only [List.length_singleton] at hi hj
    omega
  child i n name c hn hc := by
    obtain ⟨-, rfl⟩ : i = 0 ∧ Node.dir 0o755 = n := by simpa [List.getElem?_singleton] using hn
    simp [Node.dir] at hc
  absent i n name _ _ := by simp [rootTree]
  closed p name h := by simp [rootTree] at h

namespace Represents

variable {nodes : List Node} {label : ℕ → List Str} {tree : Tree Str Entry}

theorem fill (h : Represents nodes label tree) {i : ℕ} {old : Node}
    (hold : nodes[i]? = some old) (e : Entry) :
    Represents (nodes.set i (old.fill e)) label (Function.update tree (label i) (some e)) := by
  have hlen : (nodes.set i (old.fill e)).length = nodes.length := List.length_set
  have hi : i < nodes.length := (List.getElem?_eq_some_iff.mp hold).1
  have hget : ∀ (j : ℕ) n, (nodes.set i (old.fill e))[j]? = some n →
      (j = i ∧ n = old.fill e) ∨ (j ≠ i ∧ nodes[j]? = some n) := by
    intro j n hn
    by_cases hj : j = i
    · subst hj
      rw [List.getElem?_set_self hi] at hn
      exact Or.inl ⟨rfl, (Option.some.inj hn).symm⟩
    · rw [List.getElem?_set_ne (Ne.symm hj)] at hn
      exact Or.inr ⟨hj, hn⟩
  have htree : ∀ p, tree p = none → Function.update tree (label i) (some e) p = none := by
    intro p hp
    have hne : p ≠ label i := by
      rintro rfl
      rw [h.entry i old hold] at hp
      cases hp
    rw [Function.update_of_ne hne, hp]
  refine ⟨hlen ▸ h.nonempty, h.root, ?_, ?_, ?_, ?_, ?_⟩
  · intro j n hn
    rcases hget j n hn with ⟨rfl, rfl⟩ | ⟨hj, hn⟩
    · rw [Function.update_self]
      rfl
    · have hjlt := (List.getElem?_eq_some_iff.mp hn).1
      rw [Function.update_of_ne fun heq => hj (h.inj j i hjlt hi heq), h.entry j n hn]
  · rw [hlen]
    exact h.inj
  · intro j n name c hn hc
    rw [hlen]
    rcases hget j n hn with ⟨rfl, rfl⟩ | ⟨-, hn⟩
    · exact h.child j old name c hold hc
    · exact h.child j n name c hn hc
  · intro j n name hn hc
    apply htree
    rcases hget j n hn with ⟨rfl, rfl⟩ | ⟨-, hn⟩
    · exact h.absent j old name hold hc
    · exact h.absent j n name hn hc
  · intro p name hp hnone
    have hroot : tree p = none := by
      by_cases heq : p = label i
      · rw [heq, Function.update_self] at hnone
        cases hnone
      · rwa [Function.update_of_ne heq] at hnone
    have hbelow : tree (p ++ [name]) = none := by
      by_contra hsome
      exact h.closed p name hsome hroot
    exact hp (htree _ hbelow)

theorem getElem?_grow {cur j : ℕ} {node n new : Node} {comp : Str}
    (hcur : cur < nodes.length)
    (hn : ((nodes ++ [new]).set cur (node.link comp nodes.length))[j]? = some n) :
    (j = cur ∧ n = node.link comp nodes.length) ∨
      (j ≠ cur ∧ nodes[j]? = some n) ∨ (j = nodes.length ∧ n = new) := by
  by_cases hj : j = cur
  · subst hj
    rw [List.getElem?_set_self (by simp only [List.length_append, List.length_singleton]; omega)] at hn
    exact Or.inl ⟨rfl, (Option.some.inj hn).symm⟩
  · rw [List.getElem?_set_ne (Ne.symm hj)] at hn
    by_cases hlt : j < nodes.length
    · rw [List.getElem?_append_left hlt] at hn
      exact Or.inr (Or.inl ⟨hj, hn⟩)
    · rw [List.getElem?_append_right (by omega), List.getElem?_singleton] at hn
      by_cases hzero : j - nodes.length = 0
      · rw [if_pos hzero] at hn
        exact Or.inr (Or.inr ⟨by omega, (Option.some.inj hn).symm⟩)
      · rw [if_neg hzero] at hn
        cases hn

theorem link_children (node : Node) (comp name : Str) (id : ℕ) :
    (node.link comp id).children[name]? =
      if comp = name then some id else node.children[name]? := by
  simp only [Node.link, Std.TreeMap.getElem?_insert, Std.compare_eq_iff_eq]

/-- A new node without children, linked below `cur` under a name that was free. -/
theorem grow (h : Represents nodes label tree) {cur : ℕ} {node : Node} {comp : Str}
    (hnode : nodes[cur]? = some node) (hfree : node.children[comp]? = none) (e : Entry) :
    Represents ((nodes ++ [Node.ofEntry e]).set cur (node.link comp nodes.length))
      (Function.update label nodes.length (label cur ++ [comp]))
      (Function.update tree (label cur ++ [comp]) (some e)) := by
  have hcur : cur < nodes.length := (List.getElem?_eq_some_iff.mp hnode).1
  have hlen : ((nodes ++ [Node.ofEntry e]).set cur (node.link comp nodes.length)).length =
      nodes.length + 1 := by simp
  have hold : ∀ j < nodes.length,
      Function.update label nodes.length (label cur ++ [comp]) j = label j := fun j hj =>
    Function.update_of_ne (by omega) _ _
  have hnew : Function.update label nodes.length (label cur ++ [comp]) nodes.length =
      label cur ++ [comp] := Function.update_self _ _ _
  have hnone : tree (label cur ++ [comp]) = none := h.absent cur node comp hnode hfree
  have hlabel : ∀ j < nodes.length, label j ≠ label cur ++ [comp] := by
    intro j hj heq
    have hentry := h.entry j nodes[j] (List.getElem?_eq_getElem hj)
    rw [heq, hnone] at hentry
    cases hentry
  have hget := fun (j : ℕ) n => @getElem?_grow nodes cur j node n (Node.ofEntry e) comp hcur
  refine ⟨by omega, ?_, ?_, ?_, ?_, ?_, ?_⟩
  · rw [hold 0 h.nonempty, h.root]
  · intro j n hn
    rcases hget j n hn with ⟨rfl, rfl⟩ | ⟨-, hn⟩ | ⟨rfl, rfl⟩
    · rw [hold j hcur, Function.update_of_ne (hlabel j hcur)]
      exact h.entry j node hnode
    · have hj := (List.getElem?_eq_some_iff.mp hn).1
      rw [hold j hj, Function.update_of_ne (hlabel j hj), h.entry j n hn]
    · rw [hnew, Function.update_self]
      rfl
  · intro i j hi hj heq
    rw [hlen] at hi hj
    rcases Nat.lt_or_ge i nodes.length with hi' | hi' <;>
      rcases Nat.lt_or_ge j nodes.length with hj' | hj'
    · rw [hold i hi', hold j hj'] at heq
      exact h.inj i j hi' hj' heq
    · obtain rfl : j = nodes.length := by omega
      rw [hold i hi', hnew] at heq
      exact absurd heq (hlabel i hi')
    · obtain rfl : i = nodes.length := by omega
      rw [hold j hj', hnew] at heq
      exact absurd heq.symm (hlabel j hj')
    · omega
  · intro j n name c hn hc
    rw [hlen]
    rcases hget j n hn with ⟨rfl, rfl⟩ | ⟨-, hn⟩ | ⟨rfl, rfl⟩
    · rw [link_children] at hc
      rw [hold j hcur]
      by_cases hname : comp = name
      · subst hname
        rw [if_pos rfl] at hc
        obtain rfl : nodes.length = c := Option.some.inj hc
        exact ⟨by omega, hnew⟩
      · rw [if_neg hname] at hc
        obtain ⟨hclt, hclabel⟩ := h.child j node name c hnode hc
        exact ⟨by omega, by rw [hold c hclt, hclabel]⟩
    · obtain ⟨hclt, hclabel⟩ := h.child j n name c hn hc
      have hj := (List.getElem?_eq_some_iff.mp hn).1
      exact ⟨by omega, by rw [hold c hclt, hold j hj, hclabel]⟩
    · simp [Node.ofEntry] at hc
  · intro j n name hn hc
    rcases hget j n hn with ⟨rfl, rfl⟩ | ⟨hj, hn⟩ | ⟨rfl, rfl⟩
    · rw [link_children] at hc
      by_cases hname : comp = name
      · rw [if_pos hname] at hc
        cases hc
      · rw [if_neg hname] at hc
        rw [hold j hcur, Function.update_of_ne (by simpa using fun heq => hname heq.symm)]
        exact h.absent j node name hnode hc
    · have hjlt := (List.getElem?_eq_some_iff.mp hn).1
      have hne : label j ++ [name] ≠ label cur ++ [comp] := by
        intro heq
        obtain ⟨hlab, -⟩ := List.append_inj' heq rfl
        exact hj (h.inj j cur hjlt hcur hlab)
      rw [hold j hjlt, Function.update_of_ne hne]
      exact h.absent j n name hn hc
    · rw [hnew, Function.update_of_ne (by simp)]
      by_contra hsome
      exact h.closed _ _ hsome hnone
  · intro p name hp hnone'
    by_cases hat : p ++ [name] = label cur ++ [comp]
    · obtain ⟨rfl, -⟩ := List.append_inj' hat rfl
      rw [Function.update_of_ne (by simp), h.entry cur node hnode] at hnone'
      cases hnone'
    · rw [Function.update_of_ne hat] at hp
      by_cases hp' : p = label cur ++ [comp]
      · rw [hp', Function.update_self] at hnone'
        cases hnone'
      · rw [Function.update_of_ne hp'] at hnone'
        exact h.closed p name hp hnone'

/-- Every path of the tree is the label of a node, reached from its parent's. -/
theorem exists_child (h : Represents nodes label tree) {i : ℕ} {n : Node} {name : Str}
    (hn : nodes[i]? = some n) (hsome : tree (label i ++ [name]) ≠ none) :
    ∃ c : ℕ, n.children[name]? = some c ∧ c < nodes.length ∧ label c = label i ++ [name] := by
  cases hc : n.children[name]? with
  | none => exact absurd (h.absent i n name hn hc) hsome
  | some c => exact ⟨c, rfl, h.child i n name c hn hc⟩

theorem exists_node (h : Represents nodes label tree) {p : List Str} (hsome : tree p ≠ none) :
    ∃ i < nodes.length, label i = p := by
  induction p using List.reverseRecOn with
  | nil => exact ⟨0, h.nonempty, h.root⟩
  | append_singleton p name ih =>
    obtain ⟨i, hi, hlabel⟩ := ih (h.closed p name hsome)
    rw [← hlabel] at hsome ⊢
    obtain ⟨c, -, hc, hclabel⟩ := h.exists_child (List.getElem?_eq_getElem hi) hsome
    exact ⟨c, hc, hclabel⟩

end Represents

/-- Inserting below the node `cur` never fails and plants the entry. -/
theorem insertAt_represents {nodes : List Node} {label : ℕ → List Str}
    {tree : Tree Str Entry} {cur : ℕ} (h : Represents nodes label tree)
    (hcur : cur < nodes.length) (comps : List Str) (e : Entry) :
    ∃ nodes' label', insertAt nodes cur comps e = .ok nodes' ∧
      Represents nodes' label' (insertRule.plant tree (label cur) comps e) := by
  induction comps generalizing nodes label tree cur with
  | nil => exact ⟨nodes, label, rfl, h⟩
  | cons comp rest ih =>
    have hnode : nodes[cur]? = some nodes[cur] := List.getElem?_eq_getElem hcur
    rw [insertAt, hnode, Rule.plant]
    simp only [unwrap, ok_bind]
    cases hchild : nodes[cur].children[comp]? with
    | some existing =>
      obtain ⟨hlt, hlabel⟩ := h.child cur _ comp existing hnode hchild
      have hold : nodes[existing]? = some nodes[existing] := List.getElem?_eq_getElem hlt
      have htree := h.entry existing _ hold
      rw [hlabel] at htree
      by_cases hput : rest = [] ∧ e.kind ≠ .directory
      · have hplace : insertRule.place (rest = []) e (tree (label cur ++ [comp])) = e := by
          simp [htree, Rule.place, insertRule, hput.1, hput.2]
        simp only [if_pos hput, hold, ok_bind]
        rw [hplace, ← hlabel]
        exact ih (h.fill hold e) (by rwa [List.length_set])
      · have hplace : some (insertRule.place (rest = []) e (tree (label cur ++ [comp]))) =
            tree (label cur ++ [comp]) := by
          rw [htree, Rule.place, if_neg (by simpa [insertRule] using hput)]
        simp only [if_neg hput]
        rw [hplace, Function.update_eq_self, ← hlabel]
        exact ih h hlt
    | none =>
      have htree := h.absent cur _ comp hnode hchild
      have hplace : insertRule.place (rest = []) e (tree (label cur ++ [comp])) =
          if rest = [] then e else insertRule.implied := by
        rw [htree]
        rfl
      have hnew : (if rest = [] then Node.ofEntry e else Node.dir 0o755) =
          Node.ofEntry (if rest = [] then e else insertRule.implied) := by
        by_cases hrest : rest = []
        · rw [if_pos hrest, if_pos hrest]
        · rw [if_neg hrest, if_neg hrest]
          rfl
      have hgrow := h.grow hnode hchild (if rest = [] then e else insertRule.implied)
      have hlt : nodes.length < ((nodes ++ [Node.ofEntry (if rest = [] then e else
          insertRule.implied)]).set cur ((nodes[cur]).link comp nodes.length)).length := by simp
      obtain ⟨nodes', label', hok, hrep⟩ := ih hgrow hlt
      refine ⟨nodes', label', ?_, ?_⟩
      · simpa only [hnew] using hok
      · rw [Function.update_self] at hrep
        rw [hplace]
        exact hrep

/-- A file of an archive: its path and what it puts there. -/
abbrev File := Str × Entry

/-- Insert every file of a list, in order. -/
def insertAll (nodes : List Node) (files : List File) : Outcome (List Node) :=
  files.foldlM (fun nodes file => insert nodes file.1 file.2) nodes

/-- The files with their paths cut into components. -/
def located (files : List File) : List (List Str × Entry) :=
  files.map fun file => (Path.components file.1, file.2)

/-- Inserting files never fails and plants their entries, in order. -/
theorem insertAll_represents {nodes : List Node} {label : ℕ → List Str}
    {tree : Tree Str Entry} (h : Represents nodes label tree) (files : List File) :
    ∃ nodes' label', insertAll nodes files = .ok nodes' ∧
      Represents nodes' label' (insertRule.plantAll tree (located files)) := by
  induction files generalizing nodes label tree with
  | nil => exact ⟨nodes, label, rfl, h⟩
  | cons file files ih =>
    obtain ⟨nodes₁, label₁, hok₁, h₁⟩ :=
      insertAt_represents h h.nonempty (Path.components file.1) file.2
    rw [h.root] at h₁
    obtain ⟨nodes₂, label₂, hok₂, h₂⟩ := ih h₁
    refine ⟨nodes₂, label₂, ?_, h₂⟩
    rw [insertAll, List.foldlM_cons]
    exact bind_eq_ok.mpr ⟨nodes₁, hok₁, hok₂⟩

end Lamfold.Cpio
