import Lamfold.Loops
import Lamfold.Lru
import Lamfold.Substrate

/-!
The cache of decompressed blocks. Every entry has the tick of its last use, and the entry of
the least tick is evicted until a new block fits. The lengths that are added up are of blocks
that are in memory together, so that sums of them are plain ones.
-/
namespace Lamfold.Cache

open Effects Loops Lru

structure Entry where
  data : List UInt8
  last : ℕ

structure BlockCache where
  entries : Std.TreeMap ℕ Entry
  tick : ℕ
  capBytes : ℕ
  curBytes : ℕ

def BlockCache.new (capBytes : ℕ) : BlockCache := ⟨∅, 0, capBytes, 0⟩

/-- `wrapping_add(1)` of the 64-bit tick. -/
def BlockCache.nextTick (c : BlockCache) : ℕ := (c.tick + 1) % 2 ^ 64

def BlockCache.get (c : BlockCache) (key : ℕ) : Option (List UInt8) × BlockCache :=
  match c.entries[key]? with
  | none => (none, { c with tick := c.nextTick })
  | some entry => (some entry.data,
      { c with tick := c.nextTick, entries := c.entries.insert key ⟨entry.data, c.nextTick⟩ })

/-- The victim is the first entry of the least tick, in the order of the keys. -/
def BlockCache.evictOne (c : BlockCache) : Option ℕ × BlockCache :=
  match c.entries.toList.minOn? (fun e => e.2.last) with
  | none => (none, c)
  | some victim => ((c.entries[victim.1]?).map fun e => e.data.length,
      { c with entries := c.entries.erase victim.1 })

/-- What an insert does first: the entry of its key is removed. -/
def BlockCache.removeOld (c : BlockCache) (key : ℕ) : Outcome BlockCache :=
  match c.entries[key]? with
  | none => .ok c
  | some old => do
    let curBytes ← minus c.curBytes old.data.length
    return { c with curBytes, entries := c.entries.erase key }

/-- An iteration of the loop that makes room for a block of `len` bytes. -/
def evictTurn (len : ℕ) : Loop Fault BlockCache BlockCache := fun c =>
  if c.curBytes + len > c.capBytes then
    match c.evictOne with
    | (some freed, c) => do
      let curBytes ← minus c.curBytes freed
      return .inr { c with curBytes }
    | (none, c) => .ok (.inl c)
  else .ok (.inl c)

section Eviction

variable {c t : BlockCache} {len : ℕ}

theorem evictOne_none (h : c.entries.toList.minOn? (fun e => e.2.last) = none) :
    c.evictOne = (none, c) := by
  rw [BlockCache.evictOne, h]

theorem evictOne_some {victim : ℕ × Entry}
    (h : c.entries.toList.minOn? (fun e => e.2.last) = some victim) :
    c.entries[victim.1]? = some victim.2 ∧ c.evictOne =
      (some victim.2.data.length, { c with entries := c.entries.erase victim.1 }) := by
  have hfound := Std.TreeMap.mem_toList_iff_getElem?_eq_some.mp (List.minOn?_mem h)
  refine ⟨hfound, ?_⟩
  rw [BlockCache.evictOne, h]
  dsimp only
  rw [hfound, Option.map_some]

/-- The loop goes on after an entry is evicted, one whose bytes were counted. -/
theorem evictTurn_next (h : evictTurn len c = .ok (.inr t)) :
    c.capBytes < c.curBytes + len ∧ ∃ victim : ℕ × Entry,
      c.entries.toList.minOn? (fun e => e.2.last) = some victim ∧
      c.entries[victim.1]? = some victim.2 ∧ victim.2.data.length ≤ c.curBytes ∧
      t = { c with
        curBytes := c.curBytes - victim.2.data.length, entries := c.entries.erase victim.1 } := by
  unfold evictTurn at h
  split at h
  · rename_i hfull
    refine ⟨hfull, ?_⟩
    cases hleast : c.entries.toList.minOn? (fun e => e.2.last) with
    | none =>
      rw [evictOne_none hleast] at h
      cases h
    | some victim =>
      obtain ⟨hfound, hevict⟩ := evictOne_some hleast
      rw [hevict] at h
      obtain ⟨cur, hcur, h⟩ := bind_eq_ok.mp h
      obtain ⟨hle, rfl⟩ := minus_eq_ok.mp hcur
      exact ⟨victim, rfl, hfound, hle, (Sum.inr.inj (Except.ok.inj h)).symm⟩
  · cases h

/-- The loop is left once there is room, or nothing to evict. -/
theorem evictTurn_leave (h : evictTurn len c = .ok (.inl t)) :
    t = c ∧ (c.curBytes + len ≤ c.capBytes ∨ c.entries.toList = []) := by
  unfold evictTurn at h
  split at h
  · cases hleast : c.entries.toList.minOn? (fun e => e.2.last) with
    | none =>
      rw [evictOne_none hleast] at h
      refine ⟨(Sum.inl.inj (Except.ok.inj h)).symm, .inr ?_⟩
      by_contra hne
      have hsome := List.isSome_minOn?_iff (f := fun e : ℕ × Entry => e.2.last).mpr hne
      rw [hleast] at hsome
      cases hsome
    | some victim =>
      rw [(evictOne_some hleast).2] at h
      obtain ⟨cur, -, h⟩ := bind_eq_ok.mp h
      cases h
  · rename_i hroom
    exact ⟨(Sum.inl.inj (Except.ok.inj h)).symm, .inl (by omega)⟩

theorem evictTurn_lowers (len : ℕ) : Lowers (fun c => c.entries.size) (evictTurn len) := by
  intro c t h
  obtain ⟨-, victim, -, hfound, -, rfl⟩ := evictTurn_next h
  have hlen := (toList_perm_cons hfound).length_eq
  rw [List.length_cons, Std.TreeMap.length_toList, Std.TreeMap.length_toList] at hlen
  dsimp only
  omega

end Eviction

/-- Entries are evicted until a block of `len` bytes fits. -/
def BlockCache.makeRoom (c : BlockCache) (len : ℕ) : Outcome BlockCache :=
  run (evictTurn len) _ (evictTurn_lowers len) c

/-- What an insert does last: the block is kept as the one used last. -/
def BlockCache.keep (c : BlockCache) (key : ℕ) (data : List UInt8) : BlockCache :=
  { c with
    tick := c.nextTick
    curBytes := c.curBytes + data.length
    entries := c.entries.insert key ⟨data, c.nextTick⟩ }

def BlockCache.insert (c : BlockCache) (key : ℕ) (data : List UInt8) : Outcome BlockCache :=
  if c.capBytes = 0 ∨ data.length > c.capBytes then .ok c
  else do
    let c ← c.removeOld key
    let c ← c.makeRoom data.length
    return c.keep key data

def BlockCache.lenBytes (c : BlockCache) : ℕ := c.curBytes

def Entry.len (e : Entry) : ℕ := e.data.length

/-- The bytes of the retained blocks. -/
def BlockCache.held (c : BlockCache) : ℕ := total Entry.len c.entries.toList

/-- The count is that of the blocks, it is within the capacity, and without a capacity nothing
is retained. -/
structure Counted (c : BlockCache) : Prop where
  cur_eq : c.curBytes = c.held
  cur_le : c.curBytes ≤ c.capBytes
  empty : c.capBytes = 0 → ∀ key : ℕ, c.entries[key]? = none

/-- `c'` is `c` without some of its entries, and counts the others. -/
structure Trimmed (c c' : BlockCache) : Prop where
  tick_eq : c'.tick = c.tick
  cap_eq : c'.capBytes = c.capBytes
  cur_eq : c'.curBytes = c'.held
  sub : ∀ {key : ℕ} {e : Entry}, c'.entries[key]? = some e → c.entries[key]? = some e

/-- The states of an insert that keeps its block: without the old entry of the key, and with
room for the block. -/
structure InsertSteps (c : BlockCache) (key : ℕ) (data : List UInt8) (c₁ c₂ : BlockCache) :
    Prop where
  removed : c.removeOld key = .ok c₁
  made : c₁.makeRoom data.length = .ok c₂
  others : ∀ k : ℕ, c₁.entries[k]? = if key = k then none else c.entries[k]?
  first : Trimmed c c₁
  second : Trimmed c₁ c₂
  room : c₂.curBytes + data.length ≤ c.capBytes
  kept : c.insert key data = .ok (c₂.keep key data)

section Counting

variable {c c' t : BlockCache} {key len : ℕ} {data : List UInt8} {e : Entry}

theorem Trimmed.refl (h : c.curBytes = c.held) : Trimmed c c := ⟨rfl, rfl, h, fun h => h⟩

theorem Trimmed.trans (h : Trimmed c c') (h' : Trimmed c' t) : Trimmed c t where
  tick_eq := h'.tick_eq.trans h.tick_eq
  cap_eq := h'.cap_eq.trans h.cap_eq
  cur_eq := h'.cur_eq
  sub hfound := h.sub (h'.sub hfound)

theorem held_eq (h : c.entries[key]? = some e) :
    c.held = e.len + total Entry.len (c.entries.erase key).toList := by
  rw [BlockCache.held, total_perm (toList_perm_cons h), total_cons]

theorem minus_len {n : ℕ} (h : e.len ≤ n) : minus n e.data.length = .ok (n - e.len) :=
  minus_eq_ok.mpr ⟨h, rfl⟩

/-- A retained block is one of those that are counted. -/
theorem Counted.len_le (h : Counted c) (hfound : c.entries[key]? = some e) :
    e.len ≤ c.capBytes := by
  have hheld := held_eq hfound
  have hcur := h.cur_eq
  have hle := h.cur_le
  omega

/-- Without an entry and its bytes. -/
theorem trimmed_erase (hcur : c.curBytes = c.held) (h : c.entries[key]? = some e) :
    e.len ≤ c.curBytes ∧ Trimmed c
      { c with curBytes := c.curBytes - e.len, entries := c.entries.erase key } := by
  have hheld := held_eq h
  refine ⟨by omega, rfl, rfl, ?_, ?_⟩
  · show c.curBytes - e.len = total Entry.len (c.entries.erase key).toList
    omega
  · intro k u hfound
    dsimp only at hfound
    rw [getElem?_erase] at hfound
    split at hfound
    · cases hfound
    · exact hfound

theorem removeOld_ok (hcur : c.curBytes = c.held) (key : ℕ) :
    ∃ c', c.removeOld key = .ok c' ∧ Trimmed c c' ∧
      ∀ k : ℕ, c'.entries[k]? = if key = k then none else c.entries[k]? := by
  unfold BlockCache.removeOld
  cases hfound : c.entries[key]? with
  | none =>
    refine ⟨c, rfl, .refl hcur, fun k => ?_⟩
    split
    · rename_i hkey
      exact hkey ▸ hfound
    · rfl
  | some old =>
    obtain ⟨hle, htrimmed⟩ := trimmed_erase hcur hfound
    refine ⟨_, ?_, htrimmed, fun k => getElem?_erase k⟩
    dsimp only
    rw [minus_len hle]
    rfl

theorem trimmed_evictTurn (hcur : c.curBytes = c.held) (h : evictTurn len c = .ok (.inr t)) :
    Trimmed c t := by
  obtain ⟨-, victim, -, hfound, -, rfl⟩ := evictTurn_next h
  exact (trimmed_erase hcur hfound).2

/-- No turn subtracts more than is counted. -/
theorem evictTurn_ne_error (hcur : c.curBytes = c.held) (f : Fault) :
    evictTurn len c ≠ .error f := by
  intro h
  unfold evictTurn at h
  split at h
  · cases hleast : c.entries.toList.minOn? (fun e => e.2.last) with
    | none =>
      rw [evictOne_none hleast] at h
      cases h
    | some victim =>
      obtain ⟨hfound, hevict⟩ := evictOne_some hleast
      rw [hevict] at h
      dsimp only at h
      rw [minus_len (trimmed_erase hcur hfound).1] at h
      cases h
  · cases h

theorem makeRoom_ok (hcur : c.curBytes = c.held) (hlen : len ≤ c.capBytes) :
    ∃ c', c.makeRoom len = .ok c' ∧ Trimmed c c' ∧ c'.curBytes + len ≤ c.capBytes := by
  obtain ⟨n, t, hrun, hend⟩ := run_ends (evictTurn_lowers len) c
  have htrimmed : Trimmed c t := keeps_iterations
    (fun h hnext => h.trans (trimmed_evictTurn h.cur_eq hnext)) hrun (.refl hcur)
  rcases hend with ⟨b, hleave, hok⟩ | ⟨f, herror, -⟩
  · obtain ⟨rfl, hroom⟩ := evictTurn_leave hleave
    refine ⟨_, hok, htrimmed, ?_⟩
    have hcap := htrimmed.cap_eq
    rcases hroom with hroom | hempty
    · omega
    · have hheld : b.held = 0 := by
        rw [BlockCache.held, hempty]
        rfl
      have hb := htrimmed.cur_eq
      omega
  · exact absurd herror (evictTurn_ne_error htrimmed.cur_eq f)

/-- A block that is not too large is kept, in the room that was made for it. -/
theorem insert_kept (h : Counted c) (hcap : 0 < c.capBytes) (key : ℕ)
    (hlen : data.length ≤ c.capBytes) : ∃ c₁ c₂, InsertSteps c key data c₁ c₂ := by
  obtain ⟨c₁, hremove, hfirst, hothers⟩ := removeOld_ok h.cur_eq key
  obtain ⟨c₂, hmake, hsecond, hroom⟩ := makeRoom_ok hfirst.cur_eq (hfirst.cap_eq ▸ hlen)
  rw [hfirst.cap_eq] at hroom
  refine ⟨c₁, c₂, hremove, hmake, hothers, hfirst, hsecond, hroom, ?_⟩
  rw [BlockCache.insert, if_neg (by omega), hremove, ok_bind, hmake]
  rfl

theorem InsertSteps.cap_eq {c₁ c₂ : BlockCache} (h : InsertSteps c key data c₁ c₂) :
    c₂.capBytes = c.capBytes := (h.first.trans h.second).cap_eq

/-- The old entry of the key is gone when the new one is put in. -/
theorem InsertSteps.absent {c₁ c₂ : BlockCache} (h : InsertSteps c key data c₁ c₂) :
    c₂.entries[key]? = none := by
  cases hfound : c₂.entries[key]? with
  | none => rfl
  | some e =>
    have hin := h.second.sub hfound
    rw [h.others, if_pos rfl] at hin
    cases hin

theorem insert_declined (h : c.capBytes = 0 ∨ c.capBytes < data.length) :
    c.insert key data = .ok c := if_pos h

theorem held_keep (habsent : c.entries[key]? = none) :
    (c.keep key data).held = c.held + data.length := by
  show total Entry.len (c.entries.insert key ⟨data, c.nextTick⟩).toList = c.held + data.length
  rw [total_perm toList_insert_perm, total_cons, total_perm (toList_erase_perm habsent)]
  exact Nat.add_comm _ _

theorem held_get (key : ℕ) : (c.get key).2.held = c.held := by
  unfold BlockCache.get
  cases hfound : c.entries[key]? with
  | none => rfl
  | some entry =>
    show total Entry.len (c.entries.insert key ⟨entry.data, c.nextTick⟩).toList = c.held
    rw [total_perm toList_insert_perm, total_cons, held_eq hfound]
    rfl

end Counting

end Lamfold.Cache
