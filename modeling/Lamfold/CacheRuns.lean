import Lamfold.BlockCache

/-!
Runs of the block cache. Whatever is called, the count stays that of the retained blocks, and
within the capacity. As long as the tick does not wrap around, the retained blocks are those
of a list in the order of the last use. A block that is declined while an older one of its key
is retained leaves that one in place, and this is the only way to be served an older block.
-/
namespace Lamfold.Cache

open Effects Loops Lru

inductive Call
  | get (key : ℕ)
  | insert (key : ℕ) (data : List UInt8)

def BlockCache.call (c : BlockCache) : Call → Outcome BlockCache
  | .get key => .ok (c.get key).2
  | .insert key data => c.insert key data

/-- The cache after some calls. -/
def runCalls (capBytes : ℕ) (calls : List Call) : Outcome BlockCache :=
  calls.foldlM BlockCache.call (.new capBytes)

theorem runCalls_concat (capBytes : ℕ) (calls : List Call) (call : Call) :
    runCalls capBytes (calls ++ [call]) = (do (← runCalls capBytes calls).call call) := by
  rw [runCalls, List.foldlM_append]
  refine bind_congr fun c => ?_
  exact bind_pure _

section Counting

variable {c c' : BlockCache}

theorem Counted.new (capBytes : ℕ) : Counted (.new capBytes) where
  cur_eq := rfl
  cur_le := Nat.zero_le _
  empty _ _ := Std.TreeMap.getElem?_emptyc

theorem get_cap (c : BlockCache) (key : ℕ) : (c.get key).2.capBytes = c.capBytes := by
  unfold BlockCache.get
  split <;> rfl

theorem get_cur (c : BlockCache) (key : ℕ) : (c.get key).2.curBytes = c.curBytes := by
  unfold BlockCache.get
  split <;> rfl

theorem get_answer (c : BlockCache) (key : ℕ) :
    (c.get key).1 = (c.entries[key]?).map Entry.data := by
  unfold BlockCache.get
  cases c.entries[key]? <;> rfl

/-- A lookup changes the tick of an entry, and nothing that is served. -/
theorem get_data (c : BlockCache) (key k : ℕ) :
    ((c.get key).2.entries[k]?).map Entry.data = (c.entries[k]?).map Entry.data := by
  unfold BlockCache.get
  cases hfound : c.entries[key]? with
  | none => rfl
  | some entry =>
    dsimp only
    rw [getElem?_insert]
    split
    · rename_i hkey
      rw [← hkey, hfound]
      rfl
    · rfl

theorem Counted.get (h : Counted c) (key : ℕ) : Counted (c.get key).2 where
  cur_eq := by rw [get_cur, held_get, h.cur_eq]
  cur_le := by
    rw [get_cur, get_cap]
    exact h.cur_le
  empty hzero k := by
    have hdata := get_data c key k
    rw [h.empty (get_cap c key ▸ hzero), Option.map_none] at hdata
    exact Option.map_eq_none_iff.mp hdata

theorem Counted.insert (h : Counted c) (key : ℕ) (data : List UInt8) :
    ∃ c', c.insert key data = .ok c' ∧ Counted c' ∧ c'.capBytes = c.capBytes := by
  by_cases hdeclined : c.capBytes = 0 ∨ c.capBytes < data.length
  · exact ⟨c, insert_declined hdeclined, h, rfl⟩
  · have hlen : data.length ≤ c.capBytes := by omega
    obtain ⟨c₁, c₂, hsteps⟩ := insert_kept h (by omega) key hlen
    have hcap := hsteps.cap_eq
    refine ⟨_, hsteps.kept, ⟨?_, ?_, ?_⟩, hcap⟩
    · rw [held_keep hsteps.absent, ← hsteps.second.cur_eq]
      rfl
    · exact hcap ▸ hsteps.room
    · intro hzero
      have hzero' : c.capBytes = 0 := hcap ▸ hzero
      omega

theorem Counted.call (h : Counted c) (call : Call) :
    ∃ c', c.call call = .ok c' ∧ Counted c' ∧ c'.capBytes = c.capBytes := by
  cases call with
  | get key => exact ⟨_, rfl, h.get key, get_cap c key⟩
  | insert key data => exact h.insert key data

/-- Every run ends, with a cache that counts right. -/
theorem runCalls_counted (capBytes : ℕ) (calls : List Call) :
    ∃ c, runCalls capBytes calls = .ok c ∧ Counted c ∧ c.capBytes = capBytes := by
  induction calls using List.reverseRecOn with
  | nil => exact ⟨_, rfl, .new capBytes, rfl⟩
  | append_singleton calls call ih =>
    obtain ⟨c, hrun, hcounted, hcap⟩ := ih
    obtain ⟨c', hcall, hcounted', hcap'⟩ := hcounted.call call
    refine ⟨c', ?_, hcounted', hcap'.trans hcap⟩
    rw [runCalls_concat, hrun]
    exact hcall

end Counting

/-- The retained blocks by their keys. -/
def BlockCache.retained (c : BlockCache) : List (ℕ × List UInt8) :=
  c.entries.toList.map (Prod.map id Entry.data)

def referenceCall (capBytes : ℕ) (l : List (ℕ × List UInt8)) : Call → List (ℕ × List UInt8)
  | .get key => touch key l
  | .insert key data => put List.length capBytes key data l

/-- The blocks that are to be retained after some calls, the one used last in front. -/
def reference (capBytes : ℕ) (calls : List Call) : List (ℕ × List UInt8) :=
  calls.foldl (referenceCall capBytes) []

/-- The blocks in the order of their ticks are those of the list. -/
def Refines (c : BlockCache) (l : List (ℕ × List UInt8)) : Prop :=
  ∃ es, InOrder Entry.last c.entries es ∧ (∀ e ∈ es, e.2.last ≤ c.tick) ∧
    l = es.map (Prod.map id Entry.data)

section Order

variable {c c' t : BlockCache} {l : List (ℕ × List UInt8)} {es : List (ℕ × Entry)} {len : ℕ}

theorem Refines.new (capBytes : ℕ) : Refines (.new capBytes) [] :=
  ⟨[], .empty, fun _ h => absurd h List.not_mem_nil, rfl⟩

theorem Refines.perm (h : Refines c l) : c.retained.Perm l := by
  obtain ⟨es, horder, -, rfl⟩ := h
  exact horder.perm.map _

theorem Refines.lookup (h : Refines c l) (key : ℕ) : l.lookup key = (c.get key).1 := by
  obtain ⟨es, horder, -, rfl⟩ := h
  rw [lookup_map, horder.lookup, get_answer]

/-- An iteration evicts the last entry of the list. -/
theorem evictTurn_order (hcur : c.curBytes = c.held) (horder : InOrder Entry.last c.entries es)
    (hlen : len ≤ c.capBytes) (h : evictTurn len c = .ok (.inr t)) :
    ∃ es', InOrder Entry.last t.entries es' ∧
      evict Entry.len (c.capBytes - len) es' = evict Entry.len (c.capBytes - len) es := by
  obtain ⟨hfull, victim, hleast, hfound, -, rfl⟩ := evictTurn_next h
  have htotal : total Entry.len es = c.curBytes := by
    rw [hcur, BlockCache.held, total_perm horder.perm]
  rcases List.eq_nil_or_concat es with rfl | ⟨es', e, rfl⟩
  · have hmem := (horder.mem_iff victim.1 victim.2).mpr hfound
    cases hmem
  · rw [List.concat_eq_append] at horder htotal ⊢
    have hvictim : some victim = some e := hleast.symm.trans horder.minOn?_eq
    obtain rfl := Option.some.inj hvictim
    exact ⟨es', horder.erase_last, (evict_concat (by omega)).symm⟩

theorem makeRoom_order (hcur : c.curBytes = c.held) (horder : InOrder Entry.last c.entries es)
    (hlen : len ≤ c.capBytes) (h : c.makeRoom len = .ok c') :
    InOrder Entry.last c'.entries (evict Entry.len (c.capBytes - len) es) := by
  have hkeeps : ∀ {s t}, (Trimmed c s ∧ ∃ es', InOrder Entry.last s.entries es' ∧
      evict Entry.len (c.capBytes - len) es' = evict Entry.len (c.capBytes - len) es) →
      evictTurn len s = .ok (.inr t) → Trimmed c t ∧ ∃ es', InOrder Entry.last t.entries es' ∧
        evict Entry.len (c.capBytes - len) es' = evict Entry.len (c.capBytes - len) es := by
    rintro s t ⟨htrimmed, es', horder', hevict⟩ hnext
    refine ⟨htrimmed.trans (trimmed_evictTurn htrimmed.cur_eq hnext), ?_⟩
    obtain ⟨es'', horder'', hevict'⟩ :=
      evictTurn_order htrimmed.cur_eq horder' (htrimmed.cap_eq ▸ hlen) hnext
    rw [htrimmed.cap_eq] at hevict'
    exact ⟨es'', horder'', hevict'.trans hevict⟩
  obtain ⟨s, ⟨htrimmed, es', horder', hevict⟩, hleave⟩ :=
    run_eq_ok ⟨.refl hcur, es, horder, rfl⟩ hkeeps h
  obtain ⟨rfl, hroom⟩ := evictTurn_leave hleave
  have hcap := htrimmed.cap_eq
  have htotal : total Entry.len es' = c'.curBytes := by
    rw [htrimmed.cur_eq, BlockCache.held, total_perm horder'.perm]
  rw [← hevict, evict_of_le]
  · exact horder'
  · rcases hroom with hroom | hempty
    · omega
    · rw [← total_perm horder'.perm, hempty]
      exact Nat.zero_le _

theorem nextTick_eq (h : c.tick + 1 < 2 ^ 64) : c.nextTick = c.tick + 1 := Nat.mod_eq_of_lt h

theorem Refines.get (h : Refines c l) (htick : c.tick + 1 < 2 ^ 64) (key : ℕ) :
    Refines (c.get key).2 (touch key l) ∧ (c.get key).2.tick = c.tick + 1 := by
  have hlookup := h.lookup key
  obtain ⟨es, horder, hle, rfl⟩ := h
  unfold touch
  rw [hlookup]
  unfold BlockCache.get
  rw [nextTick_eq htick]
  cases hfound : c.entries[key]? with
  | none =>
    refine ⟨⟨es, horder, fun e he => ?_, rfl⟩, rfl⟩
    exact (hle e he).trans (Nat.le_succ _)
  | some entry =>
    refine ⟨⟨(key, ⟨entry.data, c.tick + 1⟩) :: remove key es, ?_, ?_, ?_⟩, rfl⟩
    · exact horder.insert key fun e he => Nat.lt_succ_of_le (hle e he)
    · intro e he
      rcases List.mem_cons.mp he with rfl | he
      · exact le_rfl
      · exact (hle e (mem_remove.mp he).1).trans (Nat.le_succ _)
    · rw [remove_map]
      rfl

/-- The room is made at the back of the list. -/
theorem InsertSteps.inOrder {c₁ c₂ : BlockCache} {key : ℕ} {data : List UInt8}
    (h : InsertSteps c key data c₁ c₂) (horder : InOrder Entry.last c.entries es)
    (hlen : data.length ≤ c.capBytes) : InOrder Entry.last c₂.entries
      (evict Entry.len (c.capBytes - data.length) (remove key es)) := by
  have hremoved : InOrder Entry.last c₁.entries (remove key es) := by
    refine (horder.erase key).congr fun k => ?_
    rw [h.others, getElem?_erase]
  have hcap := h.first.cap_eq
  have hmade := makeRoom_order h.first.cur_eq hremoved (hcap ▸ hlen) h.made
  rwa [hcap] at hmade

theorem Refines.insert (h : Refines c l) (hcounted : Counted c) (hcap : 0 < c.capBytes)
    (htick : c.tick + 1 < 2 ^ 64) (key : ℕ) (data : List UInt8)
    (hinsert : c.insert key data = .ok c') :
    Refines c' (put List.length c.capBytes key data l) ∧ c'.tick ≤ c.tick + 1 := by
  unfold put
  by_cases hlen : data.length ≤ c.capBytes
  · rw [if_pos hlen]
    obtain ⟨c₁, c₂, hsteps⟩ := insert_kept hcounted hcap key hlen
    obtain rfl := Except.ok.inj (hinsert.symm.trans hsteps.kept)
    obtain ⟨es, horder, hle, rfl⟩ := h
    have hroom := hsteps.inOrder horder hlen
    have htrimmed := hsteps.first.trans hsteps.second
    have hold : ∀ e ∈ evict Entry.len (c.capBytes - data.length) (remove key es),
        e.2.last ≤ c.tick := by
      intro e he
      have hfound := htrimmed.sub ((hroom.mem_iff e.1 e.2).mp he)
      exact hle e ((horder.mem_iff e.1 e.2).mpr hfound)
    have hsame := htrimmed.tick_eq
    have hnext : c₂.nextTick = c.tick + 1 := by rw [nextTick_eq (hsame ▸ htick), hsame]
    unfold BlockCache.keep
    rw [hnext]
    refine ⟨⟨(key, ⟨data, c.tick + 1⟩) :: evict Entry.len (c.capBytes - data.length)
      (remove key es), ?_, ?_, ?_⟩, le_rfl⟩
    · have hfront := hroom.insert (v := ⟨data, c.tick + 1⟩) key
        fun e he => Nat.lt_succ_of_le (hold e he)
      rwa [hroom.remove_eq hsteps.absent] at hfront
    · intro e he
      rcases List.mem_cons.mp he with rfl | he
      · exact le_rfl
      · exact (hold e he).trans (Nat.le_succ _)
    · rw [remove_map, evict_map]
      rfl
  · rw [if_neg hlen]
    rw [insert_declined (.inr (by omega))] at hinsert
    obtain rfl := Except.ok.inj hinsert
    exact ⟨h, Nat.le_succ _⟩

/-- Before the tick wraps around, the cache is the list. -/
theorem runCalls_refines {capBytes : ℕ} (hcap : 0 < capBytes) (calls : List Call)
    (hcount : calls.length < 2 ^ 64) {c : BlockCache} (h : runCalls capBytes calls = .ok c) :
    Refines c (reference capBytes calls) ∧ c.tick ≤ calls.length := by
  induction calls using List.reverseRecOn generalizing c with
  | nil =>
    obtain rfl := Except.ok.inj h
    exact ⟨.new capBytes, le_rfl⟩
  | append_singleton calls call ih =>
    rw [List.length_append, List.length_singleton] at hcount ⊢
    rw [runCalls_concat] at h
    obtain ⟨b, hrun, hcall⟩ := bind_eq_ok.mp h
    obtain ⟨hrefines, htick⟩ := ih (by omega) hrun
    obtain ⟨b', hrun', hcounted, rfl⟩ := runCalls_counted capBytes calls
    obtain rfl := Except.ok.inj (hrun.symm.trans hrun')
    rw [reference, List.foldl_append]
    cases call with
    | get key =>
      obtain rfl := Except.ok.inj hcall
      obtain ⟨hrefines', htick'⟩ := hrefines.get (by omega) key
      exact ⟨hrefines', by omega⟩
    | insert key data =>
      obtain ⟨hrefines', htick'⟩ := hrefines.insert hcounted hcap (by omega) key data hcall
      exact ⟨hrefines', by omega⟩

end Order

/-- In a run of fewer than 2 ^ 64 calls the cache counts right and can make room for a block
that is not too large, and what it retains is the list. -/
theorem runCalls_lru (capBytes : ℕ) (calls : List Call) (hcount : calls.length < 2 ^ 64) :
    ∃ c, runCalls capBytes calls = .ok c ∧ c.lenBytes = c.held ∧ c.lenBytes ≤ capBytes ∧
      (∀ key (data : List UInt8), 0 < capBytes → data.length ≤ capBytes →
        ∃ c₁ c₂, c.removeOld key = .ok c₁ ∧ c₁.makeRoom data.length = .ok c₂ ∧
          c₂.lenBytes + data.length ≤ capBytes ∧ c.insert key data = .ok (c₂.keep key data)) ∧
      (0 < capBytes → c.retained.Perm (reference capBytes calls) ∧
        ∀ key, (c.get key).1 = (reference capBytes calls).lookup key) := by
  obtain ⟨c, hrun, hcounted, rfl⟩ := runCalls_counted capBytes calls
  refine ⟨c, hrun, hcounted.cur_eq, hcounted.cur_le, ?_, ?_⟩
  · intro key data hcap hlen
    obtain ⟨c₁, c₂, hsteps⟩ := insert_kept hcounted hcap key hlen
    exact ⟨c₁, c₂, hsteps.removed, hsteps.made, hsteps.room, hsteps.kept⟩
  · intro hcap
    obtain ⟨hrefines, -⟩ := runCalls_refines hcap calls hcount hrun
    exact ⟨hrefines.perm, fun key => (hrefines.lookup key).symm⟩

/-- The first block was used after the second, which gives way to the third. -/
def threeBlocks : List Call :=
  [.insert 1 [0x61, 0x61], .insert 2 [0x62], .get 1, .insert 3 [0x63]]

theorem reference_threeBlocks : reference 3 threeBlocks = [(3, [0x63]), (1, [0x61, 0x61])] := by
  have hfirst : put List.length 3 1 [(0x61 : UInt8), 0x61] [] = [(1, [0x61, 0x61])] := by
    rw [put, if_pos (by decide), evict_of_le (by decide)]
    rfl
  have hsecond : put List.length 3 2 [(0x62 : UInt8)] [(1, [0x61, 0x61])] =
      [(2, [0x62]), (1, [0x61, 0x61])] := by
    rw [put, if_pos (by decide), evict_of_le (by decide)]
    rfl
  have htouch : touch 1 [(2, [(0x62 : UInt8)]), (1, [0x61, 0x61])] =
      [(1, [0x61, 0x61])] ++ [(2, [0x62])] := rfl
  have hthird : put List.length 3 3 [(0x63 : UInt8)] ([(1, [0x61, 0x61])] ++ [(2, [0x62])]) =
      [(3, [0x63]), (1, [0x61, 0x61])] := by
    have hothers : remove 3 ([(1, [(0x61 : UInt8), 0x61])] ++ [(2, [0x62])]) =
        [(1, [0x61, 0x61])] ++ [(2, [0x62])] := rfl
    rw [put, if_pos (by decide), hothers, evict_concat (by decide), evict_of_le (by decide)]
  show put List.length 3 3 [0x63] (touch 1 (put List.length 3 2 [0x62]
    (put List.length 3 1 [0x61, 0x61] []))) = _
  rw [hfirst, hsecond, htouch, hthird]

theorem runCalls_lru_threeBlocks : ∃ c, runCalls 3 threeBlocks = .ok c ∧
    c.retained.Perm [(3, [0x63]), (1, [0x61, 0x61])] := by
  obtain ⟨c, hrun, -, -, -, hlist⟩ := runCalls_lru 3 threeBlocks (by decide)
  refine ⟨c, hrun, ?_⟩
  have hperm := (hlist (by decide)).1
  rwa [reference_threeBlocks] at hperm

/-- What a call inserts under a key. -/
def Call.inserts (key : ℕ) : Call → Option (List UInt8)
  | .get _ => none
  | .insert k data => if k = key then some data else none

/-- The block that was inserted last under a key. -/
def latest (key : ℕ) (calls : List Call) : Option (List UInt8) :=
  calls.reverse.findSome? (Call.inserts key)

/-- A lookup finds nothing, or the block that was inserted last. -/
def Fresh (c : BlockCache) (calls : List Call) : Prop :=
  ∀ key, (c.get key).1 = none ∨ (c.get key).1 = latest key calls

section Freshness

variable {c c' : BlockCache} {calls : List Call} {key : ℕ} {data : List UInt8}

theorem latest_concat (key : ℕ) (calls : List Call) (call : Call) :
    latest key (calls ++ [call]) = (call.inserts key).or (latest key calls) := by
  rw [latest, List.reverse_append, List.reverse_singleton, List.singleton_append,
    List.findSome?_cons]
  cases call.inserts key <;> rfl

theorem fresh_iff : Fresh c calls ↔
    ∀ (key : ℕ) e, c.entries[key]? = some e → latest key calls = some e.data := by
  refine forall_congr' fun key => ?_
  rw [get_answer]
  cases c.entries[key]? with
  | none => simp
  | some entry => simp [eq_comm]

theorem Fresh.new (capBytes : ℕ) : Fresh (.new capBytes) [] := by
  refine fresh_iff.mpr fun key e hfound => ?_
  cases Std.TreeMap.getElem?_emptyc.symm.trans hfound

theorem Fresh.get (h : Fresh c calls) (key : ℕ) : Fresh (c.get key).2 (calls ++ [.get key]) := by
  intro k
  rw [get_answer, get_data, ← get_answer, latest_concat]
  exact h k

/-- A block that is kept is the latest of its key, and the others are served as before. -/
theorem Fresh.insert (h : Fresh c calls) (hcounted : Counted c)
    (hdeclined : c.capBytes < data.length → c.entries[key]? = none)
    (hinsert : c.insert key data = .ok c') : Fresh c' (calls ++ [.insert key data]) := by
  have hother : ∀ k : ℕ, key ≠ k → latest k (calls ++ [.insert key data]) = latest k calls := by
    intro k hne
    rw [latest_concat, Call.inserts, if_neg hne]
    rfl
  rw [fresh_iff] at h ⊢
  by_cases hkept : c.capBytes = 0 ∨ c.capBytes < data.length
  · rw [insert_declined hkept] at hinsert
    obtain rfl := Except.ok.inj hinsert
    have habsent : c.entries[key]? = none := by
      rcases hkept with hzero | hlarge
      · exact hcounted.empty hzero key
      · exact hdeclined hlarge
    intro k e hfound
    rw [hother k (by rintro rfl; cases habsent.symm.trans hfound)]
    exact h k e hfound
  · have hlen : data.length ≤ c.capBytes := by omega
    obtain ⟨c₁, c₂, hsteps⟩ := insert_kept hcounted (by omega) key hlen
    obtain rfl := Except.ok.inj (hinsert.symm.trans hsteps.kept)
    intro k e hfound
    unfold BlockCache.keep at hfound
    dsimp only at hfound
    rw [getElem?_insert] at hfound
    split at hfound
    · rename_i hkey
      obtain rfl := Option.some.inj hfound
      rw [latest_concat, Call.inserts, if_pos hkey]
      rfl
    · rename_i hne
      rw [hother k hne]
      exact h k e ((hsteps.first.trans hsteps.second).sub hfound)

/-- A declined block leaves the retained one of its key, which is shorter. -/
theorem insert_stale (hcounted : Counted c) {e : Entry} (hfound : c.entries[key]? = some e)
    (hlarge : c.capBytes < data.length) :
    c.insert key data = .ok c ∧ ¬Fresh c (calls ++ [.insert key data]) := by
  refine ⟨insert_declined (.inr hlarge), ?_⟩
  intro hfresh
  have hlatest := fresh_iff.mp hfresh key e hfound
  rw [latest_concat, Call.inserts, if_pos rfl] at hlatest
  have hdata : data = e.data := Option.some.inj hlatest
  have hle := hcounted.len_le hfound
  rw [Entry.len, ← hdata] at hle
  omega

/-- A run that declines no block of a retained key serves the latest blocks. -/
theorem runCalls_fresh {capBytes : ℕ} (hcondition : ∀ before key (data : List UInt8) c,
      before ++ [.insert key data] <+: calls → runCalls capBytes before = .ok c →
      capBytes < data.length → c.entries[key]? = none)
    (before : List Call) (hbefore : before <+: calls) (hrun : runCalls capBytes before = .ok c) :
    Fresh c before := by
  induction before using List.reverseRecOn generalizing c with
  | nil =>
    obtain rfl := Except.ok.inj hrun
    exact Fresh.new capBytes
  | append_singleton before call ih =>
    rw [runCalls_concat] at hrun
    obtain ⟨b, hrun', hcall⟩ := bind_eq_ok.mp hrun
    have hfresh := ih ((List.prefix_append before [call]).trans hbefore) hrun'
    obtain ⟨b', hrun'', hcounted, hcap⟩ := runCalls_counted capBytes before
    obtain rfl := Except.ok.inj (hrun'.symm.trans hrun'')
    cases call with
    | get key =>
      obtain rfl := Except.ok.inj hcall
      exact hfresh.get key
    | insert key data =>
      refine hfresh.insert hcounted (fun hlarge => ?_) hcall
      exact hcondition before key data b hbefore hrun' (hcap ▸ hlarge)

end Freshness

/-- Every run serves the latest blocks only, up to the first insert of a block over the
capacity under a key that is retained. -/
theorem runCalls_fresh_iff (capBytes : ℕ) (calls : List Call) :
    (∃ c, runCalls capBytes calls = .ok c) ∧
    ((∀ before c, before <+: calls → runCalls capBytes before = .ok c → Fresh c before) ↔
      ∀ before key data c, before ++ [.insert key data] <+: calls →
        runCalls capBytes before = .ok c → capBytes < data.length → c.entries[key]? = none) := by
  obtain ⟨last, hlast, -, -⟩ := runCalls_counted capBytes calls
  refine ⟨⟨last, hlast⟩, ?_, ?_⟩
  · intro hfresh before key data c hbefore hrun hlarge
    obtain ⟨b, hrun', hcounted, rfl⟩ := runCalls_counted capBytes before
    obtain rfl := Except.ok.inj (hrun.symm.trans hrun')
    cases hfound : c.entries[key]? with
    | none => rfl
    | some e =>
      obtain ⟨hinsert, hstale⟩ : c.insert key data = .ok c ∧
          ¬Fresh c (before ++ [.insert key data]) := insert_stale hcounted hfound hlarge
      refine absurd (hfresh _ c hbefore ?_) hstale
      rw [runCalls_concat, hrun]
      exact hinsert
  · intro hcondition before c hbefore hrun
    exact runCalls_fresh hcondition before hbefore hrun

/-- A block of one byte is retained, and one of three bytes under its key is declined. -/
def declinedBlock : List Call := [.insert 1 [0x61], .insert 1 [0x62, 0x62, 0x62]]

theorem runCalls_declinedBlock : ∃ c, runCalls 2 declinedBlock = .ok c ∧
    (c.get 1).1 = some [0x61] ∧ latest 1 declinedBlock = some [0x62, 0x62, 0x62] ∧
    ¬Fresh c declinedBlock := by
  obtain ⟨c, hrun, -, -⟩ := runCalls_counted 2 declinedBlock
  have hrefines := (runCalls_refines (by decide) declinedBlock (by decide) hrun).1
  have hreference : reference 2 declinedBlock = [(1, [0x61])] := by
    simp [reference, declinedBlock, referenceCall, put, remove, evict_of_le, total]
  have hget : (c.get 1).1 = some [0x61] := by
    rw [← hrefines.lookup, hreference]
    rfl
  have hlatest : latest 1 declinedBlock = some [0x62, 0x62, 0x62] := rfl
  refine ⟨c, hrun, hget, hlatest, ?_⟩
  intro hfresh
  rcases hfresh 1 with hnone | hsome
  · cases hget.symm.trans hnone
  · exact absurd (hget.symm.trans (hsome.trans hlatest)) (by decide)

end Lamfold.Cache
