import Lamfold.CpioGrammar

/-!
Chains of archives with compressed members between them. The loop over a buffer
accepts exactly the chains of the grammar and folds in their files in order; an
input in which no compressed member can start is a plain chain.
-/
namespace Lamfold.Cpio

open Effects Bytes Utf8 Streams

/-- An archive of some buffer, with the buffer's index and bytes. -/
structure Found where
  idx : ℕ
  bytes : List UInt8
  records : List Record

def Found.files (a : Found) : List File := Cpio.files a.bytes a.idx a.records

/-- `Unpacks dec idx x pos ms b archives ms' b'`: from `pos` on, buffer `idx`
with bytes `x` is zeros, archives and compressed members; unpacking it adds
members to `ms`, leaves the budget `b'` of `b`, and finds `archives` in order. -/
inductive Unpacks (dec : StreamDecoder) : ℕ → List UInt8 → ℕ → List (List UInt8) → ℕ →
    List Found → List (List UInt8) → ℕ → Prop
  | finish {idx x pos ms b} (hpos : x.length ≤ pos) : Unpacks dec idx x pos ms b [] ms b
  | zero {idx x pos ms b archives ms' b'} (hzero : x[pos]? = some 0)
      (hrest : Unpacks dec idx x (pos + 1) ms b archives ms' b') :
      Unpacks dec idx x pos ms b archives ms' b'
  | archive {idx x pos stop ms b rs archives ms' b'} (halign : pos % 4 = 0)
      (harchive : Archive x pos rs stop) (hnamed : Named x rs)
      (hrest : Unpacks dec idx x stop ms b archives ms' b') :
      Unpacks dec idx x pos ms b (⟨idx, x, rs⟩ :: archives) ms' b'
  | member {x pos used codec out ms b inner ms₁ b₁ outer ms' b'}
      (hsniff : sniff (x.drop pos) = some codec)
      (hdec : dec.decodeStream codec (x.drop pos) b = .ok (out, used))
      (hinner : Unpacks dec (ms.length + 1) out 0 (ms ++ [out]) (b - out.length) inner ms₁ b₁)
      (houter : Unpacks dec 0 x (pos + used) ms₁ b₁ outer ms' b') :
      Unpacks dec 0 x pos ms b (inner ++ outer) ms' b'

theorem zeroRun_finish {x : List UInt8} {pos : ℕ} (h : x.length ≤ pos) : zeroRun x pos = none := by
  unfold zeroRun
  by_cases hpos : pos ≤ x.length
  · rw [if_pos hpos, List.drop_eq_nil_of_le h, List.findIdx?_nil]
  · rw [if_neg hpos]

theorem zeroRun_of_getElem? {x : List UInt8} {pos : ℕ} {byte : UInt8} (h : x[pos]? = some byte) :
    zeroRun x pos = if byte = 0 then (zeroRun x (pos + 1)).map (· + 1) else some 0 := by
  obtain ⟨hlt, hbyte⟩ := List.getElem?_eq_some_iff.mp h
  unfold zeroRun
  rw [if_pos hlt.le, if_pos (Nat.succ_le_of_lt hlt), List.drop_eq_getElem_cons hlt, hbyte,
    List.findIdx?_cons]
  by_cases hzero : byte = 0
  · simp [hzero]
  · simp [hzero]

/-- The bytes skipped before a run's end are zeros. -/
theorem zero_of_zeroRun {x : List UInt8} {pos n i : ℕ} (h : zeroRun x pos = some n) (hi : i < n) :
    x[pos + i]? = some 0 := by
  have hlt := zeroRun_lt h
  unfold zeroRun at h
  rw [if_pos (by omega)] at h
  obtain ⟨hn, hbyte, hbefore⟩ := List.findIdx?_eq_some_iff_getElem.mp h
  have hz := hbefore i hi
  rw [List.getElem_drop] at hz
  rw [List.getElem?_eq_getElem (by omega)]
  simpa using hz

theorem zero_of_zeroRun_none {x : List UInt8} {pos i : ℕ} (h : zeroRun x pos = none)
    (hpos : pos ≤ x.length) (hi : pos + i < x.length) : x[pos + i]? = some 0 := by
  unfold zeroRun at h
  rw [if_pos hpos, List.findIdx?_eq_none_iff] at h
  have hz := h x[pos + i] (by
    rw [List.mem_drop_iff_getElem]
    exact ⟨i, by omega, rfl⟩)
  rw [List.getElem?_eq_getElem hi]
  simpa using hz

section Chain

variable {dec : StreamDecoder}

theorem Unpacks.zeros {idx pos n b b' : ℕ} {x : List UInt8} {ms ms' : List (List UInt8)}
    {archives : List Found} (hzero : ∀ i < n, x[pos + i]? = some 0)
    (h : Unpacks dec idx x (pos + n) ms b archives ms' b') :
    Unpacks dec idx x pos ms b archives ms' b' := by
  induction n generalizing pos with
  | zero => exact h
  | succ n ih =>
    refine .zero (hzero 0 (by omega)) (ih ?_ ?_)
    · intro i hi
      have := hzero (i + 1) (by omega)
      rwa [show pos + 1 + i = pos + (i + 1) by omega]
    · rwa [show pos + 1 + n = pos + (n + 1) by omega]

/-- One turn of the loop at a byte that is not zero. -/
def insertMember (dec : StreamDecoder) (idx : ℕ) (x : List UInt8) (pos : ℕ) (s : Unpacked) :
    Outcome Unpacked :=
  match sniff (x.drop pos) with
  | some codec =>
    if idx ≠ 0 then fail (.corrupt "cpio_compressed_inside_compressed")
    else do
      let (out, used) ← dec.decodeStream codec (x.drop pos) s.budget
      let budget ← minus s.budget out.length
      let s ← insertChain dec (s.members.length + 1) out 0 ⟨s.members ++ [out], s.nodes, budget⟩
      insertChain dec idx x (pos + used) s
  | none =>
    if !(crcMagic.isPrefixOf (x.drop pos) || newcMagic.isPrefixOf (x.drop pos)) ||
        pos % 4 != 0 then fail (.corrupt "cpio_junk_between_archives")
    else do
      let (nodes, stop) ← insertNewcArchive x idx s.nodes pos
      insertChain dec idx x stop { s with nodes := nodes }

theorem insertChain_eq (idx : ℕ) (x : List UInt8) (pos : ℕ) (s : Unpacked) :
    insertChain dec idx x pos s =
      match zeroRun x pos with
      | none => .ok s
      | some n => insertMember dec idx x (pos + n) s := by
  fun_cases insertChain dec idx x pos s with
  | case1 hrun => simp only [hrun]
  | case2 n hrun codec hsniff hidx => simp only [hrun, insertMember, hsniff, if_pos hidx]
  | case3 n hrun codec hsniff hidx e hdec =>
    simp only [hrun, insertMember, hsniff, if_neg hidx, hdec, error_bind]
  | case4 n hrun codec hsniff hidx out used hdec =>
    simp only [hrun, insertMember, hsniff, if_neg hidx, hdec, ok_bind]
  | case5 n hrun hsniff newc hjunk =>
    simp only [hrun, insertMember, hsniff]
    exact (if_pos hjunk).symm
  | case6 n hrun hsniff newc hnewc e harchive =>
    simp only [hrun, insertMember, hsniff, harchive, error_bind]
    exact (if_neg hnewc).symm
  | case7 n hrun hsniff newc hnewc nodes stop harchive =>
    simp only [hrun, insertMember, hsniff, harchive, ok_bind]
    exact (if_neg hnewc).symm

theorem insertChain_finish {idx pos : ℕ} {x : List UInt8} {s : Unpacked} (h : x.length ≤ pos) :
    insertChain dec idx x pos s = .ok s := by
  rw [insertChain_eq, zeroRun_finish h]

theorem insertChain_zero {idx pos : ℕ} {x : List UInt8} {s : Unpacked} (h : x[pos]? = some 0) :
    insertChain dec idx x pos s = insertChain dec idx x (pos + 1) s := by
  rw [insertChain_eq, insertChain_eq, zeroRun_of_getElem? h, if_pos rfl]
  cases zeroRun x (pos + 1) with
  | none => rfl
  | some n =>
    show insertMember dec idx x (pos + (n + 1)) s = insertMember dec idx x (pos + 1 + n) s
    rw [Nat.add_right_comm, Nat.add_assoc]

theorem insertChain_at {idx pos : ℕ} {x : List UInt8} {s : Unpacked} {byte : UInt8}
    (h : x[pos]? = some byte) (hbyte : byte ≠ 0) :
    insertChain dec idx x pos s = insertMember dec idx x pos s := by
  rw [insertChain_eq, zeroRun_of_getElem? h, if_neg hbyte]
  rfl

theorem isPrefixOf_drop_iff {magic x : List UInt8} {pos : ℕ} :
    magic.isPrefixOf (x.drop pos) = true ↔ (x.drop pos).take magic.length = magic := by
  rw [List.isPrefixOf_iff_prefix, List.prefix_iff_eq_take, eq_comm]

theorem slice_magic_iff {magic x : List UInt8} {pos : ℕ} (hlen : magic.length = 6) :
    slice x pos 6 = some magic ↔ magic.isPrefixOf (x.drop pos) = true := by
  rw [isPrefixOf_drop_iff, slice_eq_some, hlen]
  constructor
  · exact fun h => h.2
  · intro h
    have htake := congrArg List.length h
    rw [List.length_take, List.length_drop, hlen] at htake
    exact ⟨by omega, h⟩

/-- An archive starts with one of the two magics. -/
theorem Archive.magic {x : List UInt8} {pos stop : ℕ} {rs : List Record}
    (h : Archive x pos rs stop) :
    (crcMagic.isPrefixOf (x.drop pos) || newcMagic.isPrefixOf (x.drop pos)) = true := by
  have hrecord : ∃ crc r next, IsRecord x pos crc r next := by
    cases h with
    | trailer hrecord hname => exact ⟨_, _, _, hrecord⟩
    | record hrecord hname hrest => exact ⟨_, _, _, hrecord⟩
  obtain ⟨crc, r, next, hrecord⟩ := hrecord
  have hmagic := hrecord.magic
  rw [Bool.or_eq_true]
  cases crc with
  | false => exact Or.inr ((slice_magic_iff rfl).mp hmagic)
  | true => exact Or.inl ((slice_magic_iff rfl).mp hmagic)

theorem getElem?_of_isPrefixOf {x magic : List UInt8} {pos : ℕ} {byte : UInt8}
    (h : (byte :: magic).isPrefixOf (x.drop pos) = true) : x[pos]? = some byte := by
  rw [List.isPrefixOf_iff_prefix] at h
  obtain ⟨tail, htail⟩ := h
  rw [← Nat.add_zero pos, ← List.getElem?_drop, ← htail]
  rfl

theorem Archive.first {x : List UInt8} {pos stop : ℕ} {rs : List Record}
    (h : Archive x pos rs stop) : x[pos]? = some 0x30 := by
  rcases Bool.or_eq_true_iff.mp h.magic with hmagic | hmagic
  · exact getElem?_of_isPrefixOf hmagic
  · exact getElem?_of_isPrefixOf hmagic

theorem first_of_sniff {x : List UInt8} {pos : ℕ} {codec : StreamCodec}
    (h : sniff (x.drop pos) = some codec) : ∃ byte, x[pos]? = some byte ∧ byte ≠ 0 ∧ byte ≠ 0x30 := by
  obtain ⟨entry, hfind, -⟩ := Option.map_eq_some_iff.mp h
  have hprefix := List.find?_some hfind
  have hmem := List.mem_of_find?_eq_some hfind
  simp only [magics, List.mem_cons, List.not_mem_nil, or_false] at hmem
  rcases hmem with rfl | rfl | rfl | rfl | rfl | rfl | rfl <;>
    exact ⟨_, getElem?_of_isPrefixOf hprefix, by decide, by decide⟩

/-- No compressed stream starts like an archive. -/
theorem Archive.sniff {x : List UInt8} {pos stop : ℕ} {rs : List Record}
    (h : Archive x pos rs stop) : sniff (x.drop pos) = none := by
  cases hsniff : Streams.sniff (x.drop pos) with
  | none => rfl
  | some codec =>
    obtain ⟨byte, hbyte, -, hne⟩ := first_of_sniff hsniff
    rw [h.first] at hbyte
    exact absurd (Option.some.inj hbyte).symm hne

theorem insertAll_append {nodes nodes' : List Node} {xs ys : List File} :
    insertAll nodes (xs ++ ys) = .ok nodes' ↔
      ∃ mid, insertAll nodes xs = .ok mid ∧ insertAll mid ys = .ok nodes' := by
  unfold insertAll
  rw [List.foldlM_append, bind_eq_ok]

theorem insertMember_archive {idx pos stop : ℕ} {x : List UInt8} {s : Unpacked}
    {nodes : List Node} {rs : List Record} (halign : pos % 4 = 0)
    (harchive : Archive x pos rs stop)
    (hinsert : insertNewcArchive x idx s.nodes pos = .ok (nodes, stop)) :
    insertMember dec idx x pos s = insertChain dec idx x stop { s with nodes := nodes } := by
  simp only [insertMember, harchive.sniff, harchive.magic, halign, hinsert, ok_bind]
  rfl

/-- What the loop accepts is a chain, and the nodes are its files folded in. -/
theorem unpacks_of_insertChain {idx pos : ℕ} {x : List UInt8} {s t : Unpacked}
    (h : insertChain dec idx x pos s = .ok t) :
    ∃ archives, Unpacks dec idx x pos s.members s.budget archives t.members t.budget ∧
      insertAll s.nodes (archives.flatMap Found.files) = .ok t.nodes := by
  fun_induction insertChain dec idx x pos s generalizing t with
  | case1 idx x pos s hrun =>
    cases h
    refine ⟨[], ?_, rfl⟩
    by_cases hpos : pos ≤ x.length
    · obtain ⟨n, hn⟩ : ∃ n, pos + n = x.length := ⟨x.length - pos, by omega⟩
      refine Unpacks.zeros (n := n) ?_ (.finish hn.ge)
      intro i hi
      exact zero_of_zeroRun_none hrun hpos (by omega)
    · exact .finish (by omega)
  | case2 idx x pos s n hrun codec hsniff hidx => exact absurd h (fail_ne_ok _ _)
  | case3 idx x pos s n hrun codec hsniff hidx e hdec => cases h
  | case4 idx x pos s n hrun codec hsniff hidx out used hdec ihInner ihOuter =>
    obtain rfl : idx = 0 := not_not.mp hidx
    obtain ⟨budget, hbudget, hboth⟩ := bind_eq_ok.mp h
    obtain ⟨-, rfl⟩ := minus_eq_ok.mp hbudget
    obtain ⟨u, hu, ht⟩ := bind_eq_ok.mp hboth
    obtain ⟨inner, hinner, hfold₁⟩ := ihInner _ hu
    obtain ⟨outer, houter, hfold₂⟩ := ihOuter _ ht
    refine ⟨inner ++ outer, ?_, ?_⟩
    · exact .zeros (fun i hi => zero_of_zeroRun hrun hi) (.member hsniff hdec hinner houter)
    · rw [List.flatMap_append]
      exact insertAll_append.mpr ⟨u.nodes, hfold₁, hfold₂⟩
  | case5 idx x pos s n hrun hsniff newc => exact absurd h (fail_ne_ok _ _)
  | case6 idx x pos s n hrun hsniff newc hnewc e => cases h
  | case7 idx x pos s n hrun hsniff newc hnewc nodes stop hinsert =>
    rename_i ih
    obtain ⟨rs, harchive, hnamed, hfold⟩ := insertNewcArchive_eq_ok.mp hinsert
    obtain ⟨archives, hrest, hfold'⟩ := ih h
    have halign : (pos + n) % 4 = 0 := by
      simp only [Bool.or_eq_true, not_or] at hnewc
      simpa using hnewc.2
    refine ⟨⟨idx, x, rs⟩ :: archives, ?_, ?_⟩
    · exact .zeros (fun i hi => zero_of_zeroRun hrun hi)
        (.archive halign harchive hnamed hrest)
    · rw [List.flatMap_cons]
      exact insertAll_append.mpr ⟨nodes, hfold, hfold'⟩

/-- The loop accepts every chain whose files can be folded in. -/
theorem insertChain_of_unpacks {idx pos b b' : ℕ} {x : List UInt8} {ms ms' : List (List UInt8)}
    {archives : List Found} {nodes nodes' : List Node}
    (h : Unpacks dec idx x pos ms b archives ms' b')
    (hfold : insertAll nodes (archives.flatMap Found.files) = .ok nodes') :
    insertChain dec idx x pos ⟨ms, nodes, b⟩ = .ok ⟨ms', nodes', b'⟩ := by
  induction h generalizing nodes nodes' with
  | finish hpos =>
    cases hfold
    exact insertChain_finish hpos
  | zero hzero hrest ih => rw [insertChain_zero hzero, ih hfold]
  | @archive idx x pos stop ms b rs archives ms' b' halign harchive hnamed hrest ih =>
    rw [List.flatMap_cons] at hfold
    obtain ⟨mid, hmid, hfold⟩ := insertAll_append.mp hfold
    have hinsert := insertNewcArchive_eq_ok.mpr ⟨rs, harchive, hnamed, hmid⟩
    rw [insertChain_at harchive.first (by decide),
      insertMember_archive (s := ⟨ms, nodes, b⟩) halign harchive hinsert]
    exact ih hfold
  | @member x pos used codec out ms b inner ms₁ b₁ outer ms' b' hsniff hdec hinner houter ihInner
      ihOuter =>
    rw [List.flatMap_append] at hfold
    obtain ⟨mid, hmid, hfold⟩ := insertAll_append.mp hfold
    obtain ⟨byte, hbyte, hne, -⟩ := first_of_sniff hsniff
    have hbudget : minus b out.length = .ok (b - out.length) :=
      minus_eq_ok.mpr ⟨dec.out_le hdec, rfl⟩
    rw [insertChain_at hbyte hne]
    simp only [insertMember, hsniff, ne_eq, not_true, if_false, hdec, hbudget, ok_bind,
      ihInner hmid]
    exact ihOuter hfold

/-- An input that starts with a magic opens exactly when it is a chain; the
files of its archives are folded in, in order. -/
theorem mount_eq_ok {readers : Readers} {src : Source} {c : Cpio}
    (hmagic : newcMagic.isPrefixOf src.content ∨ crcMagic.isPrefixOf src.content) :
    mount readers src = .ok c ↔ src.len ≤ maxBootFileBytes ∧
      ∃ archives ms budget, Unpacks readers.dec 0 src.content 0 [] maxBootFileBytes archives ms
          budget ∧
        c.buffers = src.content :: ms ∧
        insertAll [Node.dir 0o755] (archives.flatMap Found.files) = .ok c.nodes := by
  have hread : ∀ archive, src.readAt 0 src.len = .ok archive ↔ src.content = archive := by
    intro archive
    rw [Source.readAt_eq_ok, slice_eq_some, List.drop_zero]
    unfold Source.len
    rw [List.take_length]
    exact ⟨fun h => h.2, fun h => ⟨by omega, h⟩⟩
  unfold mount
  constructor
  · intro h
    obtain ⟨len, hlen, h⟩ := bind_eq_ok.mp h
    obtain ⟨hle, rfl⟩ := checkedFullReadLen_eq_ok.mp hlen
    obtain ⟨archive, harchive, h⟩ := bind_eq_ok.mp h
    obtain rfl := (hread archive).mp harchive
    rw [if_pos hmagic] at h
    obtain ⟨budget, hbudget, h⟩ := bind_eq_ok.mp h
    obtain ⟨-, rfl⟩ := checkedFullReadLen_eq_ok.mp hbudget
    obtain ⟨t, ht, h⟩ := bind_eq_ok.mp h
    obtain ⟨archives, hunpacks, hfold⟩ := unpacks_of_insertChain ht
    cases h
    exact ⟨hle, archives, t.members, t.budget, hunpacks, rfl, hfold⟩
  · rintro ⟨hle, archives, ms, budget, hunpacks, hbuffers, hfold⟩
    have hchain := insertChain_of_unpacks hunpacks hfold
    refine bind_eq_ok.mpr ⟨src.len, checkedFullReadLen_eq_ok.mpr ⟨hle, rfl⟩, ?_⟩
    refine bind_eq_ok.mpr ⟨src.content, (hread _).mpr rfl, ?_⟩
    rw [if_pos hmagic]
    refine bind_eq_ok.mpr ⟨maxBootFileBytes, checkedFullReadLen_eq_ok.mpr ⟨le_rfl, rfl⟩, ?_⟩
    refine bind_eq_ok.mpr ⟨_, hchain, ?_⟩
    rw [← hbuffers]
    rfl

/-- Where no compressed stream starts, unpacking is reading the plain chain. -/
theorem Unpacks.chain {idx pos b b' : ℕ} {x : List UInt8} {ms ms' : List (List UInt8)}
    {archives : List Found} (h : Unpacks dec idx x pos ms b archives ms' b')
    (hplain : ∀ p, Reach x p → sniff (x.drop p) = none) (hreach : Reach x pos) :
    ∃ rss, Chain x pos rss ∧ archives = rss.map (Found.mk idx x) ∧ ms' = ms := by
  induction h with
  | finish hpos => exact ⟨[], .finish hpos, rfl, rfl⟩
  | zero hzero hrest ih =>
    obtain ⟨rss, hchain, harchives, hms⟩ := ih hplain (.zero hreach hzero)
    exact ⟨rss, .zero hzero hchain, harchives, hms⟩
  | @archive idx x pos stop ms b rs archives ms' b' halign harchive hnamed hrest ih =>
    obtain ⟨rss, hchain, harchives, hms⟩ := ih hplain (.archive hreach halign harchive hnamed)
    exact ⟨rs :: rss, .archive halign harchive hnamed hchain, by rw [harchives, List.map_cons], hms⟩
  | member hsniff hdec hinner houter ihInner ihOuter =>
    rw [hplain _ hreach] at hsniff
    cases hsniff

theorem Chain.unpacks {x : List UInt8} {pos : ℕ} {rss : List (List Record)} (h : Chain x pos rss)
    (idx : ℕ) (ms : List (List UInt8)) (b : ℕ) :
    Unpacks dec idx x pos ms b (rss.map (Found.mk idx x)) ms b := by
  induction h with
  | finish hpos => exact .finish hpos
  | zero hzero hrest ih => exact .zero hzero ih
  | archive halign harchive hnamed hrest ih => exact .archive halign harchive hnamed ih

/-- There is always a tree to fold the files into. -/
theorem exists_insertAll (fs : List File) :
    ∃ nodes, insertAll [Node.dir 0o755] fs = .ok nodes := by
  obtain ⟨nodes, label, hok, -⟩ := insertAll_represents represents_root fs
  exact ⟨nodes, hok⟩

theorem flatMap_files (x : List UInt8) (idx : ℕ) (rss : List (List Record)) :
    (rss.map (Found.mk idx x)).flatMap Found.files = rss.flatMap (files x idx) := by
  rw [List.flatMap_map]
  rfl

/-- An input without compressed members opens exactly when it is a chain of
archives, and the nodes are the files of those archives folded in, in order. -/
theorem mount_iff_chain (readers : Readers) (src : Source)
    (hmagic : newcMagic.isPrefixOf src.content ∨ crcMagic.isPrefixOf src.content)
    (hlen : src.len ≤ maxBootFileBytes)
    (hplain : ∀ pos, Reach src.content pos → sniff (src.content.drop pos) = none) :
    ((∃ c, mount readers src = .ok c) ↔ ∃ archives, Chain src.content 0 archives) ∧
      ∀ c archives, mount readers src = .ok c → Chain src.content 0 archives →
        c.buffers = [src.content] ∧
          insertAll [Node.dir 0o755] (archives.flatMap (files src.content 0)) = .ok c.nodes := by
  refine ⟨⟨?_, ?_⟩, ?_⟩
  · rintro ⟨c, hc⟩
    obtain ⟨-, archives, ms, budget, hunpacks, -, -⟩ := (mount_eq_ok hmagic).mp hc
    obtain ⟨rss, hchain, -, -⟩ := hunpacks.chain hplain .start
    exact ⟨rss, hchain⟩
  · rintro ⟨rss, hchain⟩
    obtain ⟨nodes, hfold⟩ := exists_insertAll (rss.flatMap (files src.content 0))
    rw [← flatMap_files] at hfold
    exact ⟨⟨[src.content], nodes⟩, (mount_eq_ok hmagic).mpr
      ⟨hlen, _, [], maxBootFileBytes, hchain.unpacks 0 [] maxBootFileBytes, rfl, hfold⟩⟩
  · intro c rss hc hchain
    obtain ⟨nodes, hfold⟩ := exists_insertAll (rss.flatMap (files src.content 0))
    have hfold' := hfold
    rw [← flatMap_files] at hfold'
    have hc' : mount readers src = .ok ⟨[src.content], nodes⟩ := (mount_eq_ok hmagic).mpr
      ⟨hlen, _, [], maxBootFileBytes, hchain.unpacks 0 [] maxBootFileBytes, rfl, hfold'⟩
    rw [hc] at hc'
    obtain rfl : c = ⟨[src.content], nodes⟩ := Except.ok.inj hc'
    exact ⟨rfl, hfold⟩

end Chain

/-- Readers that know no compressed format and no older archive format. -/
def plainReaders : Readers where
  dec := {
    decodeStream := fun _ _ _ => fail (.unsupported "stream")
    used_pos := fun h => absurd h (fail_ne_ok _ _)
    used_le := fun h => absurd h (fail_ne_ok _ _)
    out_le := fun h => absurd h (fail_ne_ok _ _)
  }
  iterFiles _ := []

/-- 8 hex digits. -/
def hex8 (n : ℕ) : List UInt8 :=
  (List.range 8).map fun i =>
    let v := n / 16 ^ (7 - i) % 16
    UInt8.ofNat (if v < 10 then 0x30 + v else 0x41 + (v - 10))

/-- A newc record without data, as a writer lays it out. -/
def emptyRecord (mode : ℕ) (name : Str) : List UInt8 :=
  newcMagic ++ hex8 0 ++ hex8 mode ++ (List.replicate 9 (hex8 0)).flatten ++
    hex8 (name.length + 1) ++ hex8 0 ++ name ++
    List.replicate (align4 (newcHeader + name.length + 1) - (newcHeader + name.length)) 0

/-- The record that `emptyRecord` puts at `start`. -/
def emptyRecordAt (start mode : ℕ) (name : Str) : Record :=
  ⟨(start + newcHeader, name.length), mode, ⟨0, 0, 0⟩, 0,
    (align4 (start + newcHeader + name.length + 1), 0)⟩

/-- An archive of one empty file `a`. -/
def oneFile : Source := ⟨emptyRecord 0o100644 [0x61] ++ emptyRecord 0 trailer, by decide +kernel⟩

theorem oneFile_record : IsRecord oneFile.content 0 false (emptyRecordAt 0 0o100644 [0x61]) 112 := by
  refine ⟨?_, ?_, ?_, ?_, ?_, ?_, ?_, ?_, ⟨0, ?_, ?_⟩, ?_, ?_, ?_, ?_, ?_, ?_⟩ <;> decide +kernel

theorem oneFile_chain : Chain oneFile.content 0 [[emptyRecordAt 0 0o100644 [0x61]]] := by
  have hlast : IsRecord oneFile.content 112 false (emptyRecordAt 112 0 trailer) 236 := by
    refine ⟨?_, ?_, ?_, ?_, ?_, ?_, ?_, ?_, ⟨0, ?_, ?_⟩, ?_, ?_, ?_, ?_, ?_, ?_⟩ <;> decide +kernel
  refine .archive rfl (.record oneFile_record (by decide +kernel)
    (.trailer hlast (by decide +kernel))) ?_ (.finish (by decide +kernel))
  intro r hr
  obtain rfl := List.mem_singleton.mp hr
  decide +kernel

theorem unpacks_oneFile : Unpacks plainReaders.dec 0 oneFile.content 0 [] maxBootFileBytes
    ([[emptyRecordAt 0 0o100644 [0x61]]].map (Found.mk 0 oneFile.content)) [] maxBootFileBytes :=
  oneFile_chain.unpacks 0 [] maxBootFileBytes

theorem mount_oneFile : ∃ c, mount plainReaders oneFile = .ok c := by
  obtain ⟨nodes, hfold⟩ := exists_insertAll
    (([[emptyRecordAt 0 0o100644 [0x61]]].map (Found.mk 0 oneFile.content)).flatMap Found.files)
  exact ⟨⟨[oneFile.content], nodes⟩, (mount_eq_ok (by decide +kernel)).mpr
    ⟨by decide +kernel, _, [], maxBootFileBytes, unpacks_oneFile, rfl, hfold⟩⟩

theorem oneFile_plain (pos : ℕ) : sniff (oneFile.content.drop pos) = none := by
  have hsmall : ∀ p < 236, sniff (oneFile.content.drop p) = none := by decide +kernel
  rcases Nat.lt_or_ge pos 236 with h | h
  · exact hsmall pos h
  · have hlen : oneFile.content.length = 236 := by decide +kernel
    rw [List.drop_eq_nil_of_le (by omega)]
    rfl

theorem mount_iff_chain_oneFile : ∃ c, mount plainReaders oneFile = .ok c :=
  ((mount_iff_chain plainReaders oneFile (by decide +kernel) (by decide +kernel)
    fun pos _ => oneFile_plain pos).1).mpr ⟨_, oneFile_chain⟩

end Lamfold.Cpio
