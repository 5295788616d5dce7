import Lamfold.Answers
import Lamfold.CpioChain
import Lamfold.Machines

/-!
Unpacking a chain as a machine. Its state is the calls of `insert_chain` in
progress and what they have unpacked, and one step is one iteration of the
innermost loop. Each iteration moves its loop forward, a call for a member
never makes another, and every byte a member adds is taken from the budget, so
the machine stops and what it has unpacked fits in the budget it started with.
-/
namespace Lamfold.Cpio

open Effects Bytes Streams Machines

/-- A call of `insert_chain`: the buffer it reads and where its loop has got to. -/
structure Frame where
  idx : ℕ
  archive : List UInt8
  pos : ℕ

/-- What an iteration comes to: the loop returns, or it goes on at `pos` after
an archive, or after a call for the new member. -/
inductive Turn
  | done
  | archive (nodes : List Node) (pos : ℕ)
  | member (out : List UInt8) (budget pos : ℕ)

/-- One iteration of the loop of `insert_chain`. -/
def iterate (dec : StreamDecoder) (f : Frame) (s : Unpacked) : Outcome Turn :=
  match zeroRun f.archive f.pos with
  | none => .ok .done
  | some n =>
    match sniff (f.archive.drop (f.pos + n)) with
    | some codec =>
      if f.idx ≠ 0 then fail (.corrupt "cpio_compressed_inside_compressed")
      else do
        let (out, used) ← dec.decodeStream codec (f.archive.drop (f.pos + n)) s.budget
        let budget ← minus s.budget out.length
        return .member out budget (f.pos + n + used)
    | none =>
      if !(crcMagic.isPrefixOf (f.archive.drop (f.pos + n)) ||
          newcMagic.isPrefixOf (f.archive.drop (f.pos + n))) || (f.pos + n) % 4 != 0 then
        fail (.corrupt "cpio_junk_between_archives")
      else do
        let (nodes, stop) ← insertNewcArchive f.archive f.idx s.nodes (f.pos + n)
        return .archive nodes stop

/-- The calls in progress, the innermost first, and what they have unpacked. -/
structure Calls where
  stack : List Frame
  unpacked : Unpacked

def step (dec : StreamDecoder) : Machine Fault Calls
  | ⟨[], _⟩ => .ok none
  | ⟨f :: callers, s⟩ => do
    match ← iterate dec f s with
    | .done => return some ⟨callers, s⟩
    | .archive nodes pos => return some ⟨{ f with pos := pos } :: callers, { s with nodes := nodes }⟩
    | .member out budget pos =>
      return some ⟨⟨s.members.length + 1, out, 0⟩ :: { f with pos := pos } :: callers,
        ⟨s.members ++ [out], s.nodes, budget⟩⟩

section Steps

variable {dec : StreamDecoder}

/-- What an iteration can do. -/
theorem iterate_cases {f : Frame} {s : Unpacked} {turn : Turn} (h : iterate dec f s = .ok turn) :
    turn = .done ∨
    (∃ nodes pos start, turn = .archive nodes pos ∧ f.pos < pos ∧ f.pos < f.archive.length ∧
      insertNewcArchive f.archive f.idx s.nodes start = .ok (nodes, pos)) ∨
    ∃ out budget pos, turn = .member out budget pos ∧ f.pos < pos ∧ f.pos < f.archive.length ∧
      f.idx = 0 ∧ s.budget = out.length + budget := by
  unfold iterate at h
  split at h
  · exact Or.inl (Except.ok.inj h).symm
  rename_i n hrun
  have hlt := zeroRun_lt hrun
  split at h
  · split at h
    · exact absurd h (fail_ne_ok _ _)
    rename_i codec hsniff hidx
    obtain ⟨⟨out, used⟩, hdec, h⟩ := bind_eq_ok.mp h
    obtain ⟨budget, hbudget, h⟩ := bind_eq_ok.mp h
    obtain ⟨hle, rfl⟩ := minus_eq_ok.mp hbudget
    have hused := dec.used_pos hdec
    exact Or.inr (Or.inr ⟨out, _, _, (Except.ok.inj h).symm, by omega, by omega,
      not_not.mp hidx, by omega⟩)
  · split at h
    · exact absurd h (fail_ne_ok _ _)
    obtain ⟨⟨nodes, stop⟩, harchive, h⟩ := bind_eq_ok.mp h
    have hstop := insertNewcArchive_gt harchive
    exact Or.inr (Or.inl ⟨nodes, stop, _, (Except.ok.inj h).symm, by omega, by omega, harchive⟩)

/-- What a step can do. -/
theorem step_cases {c c' : Calls} (h : step dec c = .ok (some c')) :
    ∃ f callers, c.stack = f :: callers ∧
      (c' = ⟨callers, c.unpacked⟩ ∨
      (∃ nodes pos start, c' = ⟨{ f with pos := pos } :: callers,
          { c.unpacked with nodes := nodes }⟩ ∧ f.pos < pos ∧ f.pos < f.archive.length ∧
        insertNewcArchive f.archive f.idx c.unpacked.nodes start = .ok (nodes, pos)) ∨
      ∃ out budget pos, c' = ⟨⟨c.unpacked.members.length + 1, out, 0⟩ ::
          { f with pos := pos } :: callers,
          ⟨c.unpacked.members ++ [out], c.unpacked.nodes, budget⟩⟩ ∧
        f.pos < pos ∧ f.pos < f.archive.length ∧ f.idx = 0 ∧
        c.unpacked.budget = out.length + budget) := by
  obtain ⟨stack, s⟩ := c
  cases stack with
  | nil => cases h
  | cons f callers =>
    refine ⟨f, callers, rfl, ?_⟩
    obtain ⟨turn, hturn, h⟩ := bind_eq_ok.mp h
    rcases iterate_cases hturn with rfl | ⟨nodes, pos, start, rfl, hrest⟩ |
      ⟨out, budget, pos, rfl, hrest⟩
    · cases h
      exact Or.inl rfl
    · cases h
      exact Or.inr (Or.inl ⟨nodes, pos, start, rfl, hrest⟩)
    · cases h
      exact Or.inr (Or.inr ⟨out, budget, pos, rfl, hrest⟩)

/-- What is left to do when calls are in progress: each goes on where it is. -/
def finish (dec : StreamDecoder) (c : Calls) : Outcome Unpacked :=
  c.stack.foldlM (fun s f => insertChain dec f.idx f.archive f.pos s) c.unpacked

theorem insertChain_iterate (f : Frame) (s : Unpacked) :
    insertChain dec f.idx f.archive f.pos s = (do
      match ← iterate dec f s with
      | .done => return s
      | .archive nodes pos => insertChain dec f.idx f.archive pos { s with nodes := nodes }
      | .member out budget pos => do
        let s ← insertChain dec (s.members.length + 1) out 0 ⟨s.members ++ [out], s.nodes, budget⟩
        insertChain dec f.idx f.archive pos s) := by
  rw [insertChain_eq, iterate]
  cases hrun : zeroRun f.archive f.pos with
  | none => rfl
  | some n =>
    simp only [insertMember]
    cases hsniff : sniff (f.archive.drop (f.pos + n)) with
    | some codec =>
      simp only
      by_cases hidx : f.idx ≠ 0
      · rw [if_pos hidx, if_pos hidx]
        rfl
      · rw [if_neg hidx, if_neg hidx]
        cases dec.decodeStream codec (f.archive.drop (f.pos + n)) s.budget with
        | error e => rfl
        | ok decoded =>
          obtain ⟨out, used⟩ := decoded
          simp only [ok_bind]
          cases minus s.budget out.length <;> rfl
    | none =>
      simp only
      split
      · rfl
      · cases insertNewcArchive f.archive f.idx s.nodes (f.pos + n) <;> rfl

theorem finish_eq_of_step {c c' : Calls} (h : step dec c = .ok (some c')) :
    finish dec c = finish dec c' := by
  obtain ⟨stack, s⟩ := c
  cases stack with
  | nil => cases h
  | cons f callers =>
    obtain ⟨turn, hturn, h⟩ := bind_eq_ok.mp h
    rw [finish, List.foldlM_cons, insertChain_iterate, hturn, ok_bind]
    cases turn with
    | done =>
      cases h
      rfl
    | archive nodes pos =>
      cases h
      rfl
    | member out budget pos =>
      cases h
      simp only [finish, List.foldlM_cons, bind_assoc]

theorem finish_halted {c : Calls} (h : step dec c = .ok none) :
    finish dec c = .ok c.unpacked := by
  obtain ⟨stack, s⟩ := c
  cases stack with
  | nil => rfl
  | cons f callers =>
    obtain ⟨turn, -, h⟩ := bind_eq_ok.mp h
    cases turn <;> cases h

/-- A step fails as the iteration does. -/
theorem iterate_of_step {c : Calls} {e : Fault} (h : step dec c = .error e) :
    ∃ f callers, c.stack = f :: callers ∧ iterate dec f c.unpacked = .error e := by
  obtain ⟨stack, s⟩ := c
  cases stack with
  | nil => cases h
  | cons f callers =>
    refine ⟨f, callers, rfl, ?_⟩
    cases hturn : iterate dec f s with
    | error e' =>
      rw [step, hturn] at h
      cases h
      rfl
    | ok turn =>
      rw [step, hturn] at h
      cases turn <;> cases h

theorem finish_failed {c : Calls} {e : Fault} (h : step dec c = .error e) :
    finish dec c = .error e := by
  obtain ⟨f, callers, hstack, hturn⟩ := iterate_of_step h
  rw [finish, hstack, List.foldlM_cons, insertChain_iterate, hturn]
  rfl

theorem answered_hexField (x : List UInt8) (start i : ℕ) : Answered (hexField x start i) := by
  unfold hexField
  refine Answered.bind (answered_okOr ..) fun digits _ => ?_
  refine Answered.foldlM (P := fun _ => True) trivial ?_
  intro acc d _ _
  exact ⟨Answered.bind (answered_okOr ..) fun _ _ => trivial, fun _ _ => trivial⟩

theorem answered_parseRecord (x : List UInt8) (start : ℕ) (crc : Bool) :
    Answered (parseRecord x start crc) := by
  unfold parseRecord
  refine Answered.bind (answered_hexField ..) fun ino _ => ?_
  refine Answered.bind (answered_hexField ..) fun mode _ => ?_
  refine Answered.bind (answered_hexField ..) fun nlink _ => ?_
  refine Answered.bind (answered_hexField ..) fun filesize _ => ?_
  refine Answered.bind (answered_hexField ..) fun devmajor _ => ?_
  refine Answered.bind (answered_hexField ..) fun devminor _ => ?_
  refine Answered.bind (answered_hexField ..) fun namesize _ => ?_
  refine Answered.bind (answered_hexField ..) fun check _ => ?_
  refine Answered.ite (fun _ => answered_fail _) fun _ => ?_
  refine Answered.ite (fun _ => answered_fail _) fun _ => ?_
  refine Answered.ite (fun _ => answered_fail _) fun hdata => ?_
  refine Answered.bind ?_ fun _ _ => trivial
  unfold checkData
  refine Answered.ite (fun _ => ?_) fun _ => trivial
  refine Answered.bind ?_ fun _ _ => Answered.ite (fun _ => answered_fail _) fun _ => trivial
  -- the data is in the archive, so the slice is there
  rw [answered_unwrap]
  apply Option.ne_none_iff_exists'.mpr
  exact ⟨_, sliceRange_eq_some.mpr ⟨Nat.le_add_right _ _, Nat.le_of_not_lt hdata, rfl⟩⟩

theorem answered_records (x : List UInt8) (pos : ℕ) : Answered (records x pos) := by
  induction pos using records.induct x with
  | case1 pos hnone =>
    rw [records, hnone]
    exact answered_fail _
  | case2 pos magic hmagic hbad =>
    rw [records, hmagic]
    simp only [if_pos hbad]
    exact answered_fail _
  | case3 pos magic hmagic hgood e herr =>
    have hparse := answered_parseRecord x pos (magic = crcMagic)
    rw [records, hmagic]
    simp only [if_neg hgood]
    split
    · rename_i herr'
      rw [herr'] at hparse
      exact answered_error.mpr (answered_error.mp hparse)
    · rename_i hok
      rw [herr] at hok
      cases hok
  | case4 pos magic hmagic hgood record next hok ih =>
    have hrecord := (parseRecord_eq_ok (magic_eq hgood ▸ hmagic)).mp hok
    rw [records_step hrecord]
    exact Answered.ite (fun _ => trivial) fun _ => Answered.bind ih fun _ _ => trivial

/-- The nodes are those of some tree. -/
def Rooted (nodes : List Node) : Prop := ∃ label tree, Represents nodes label tree

theorem Rooted.insert {nodes : List Node} (h : Rooted nodes) (path : Str) (e : Entry) :
    ∃ nodes', insert nodes path e = .ok nodes' ∧ Rooted nodes' := by
  obtain ⟨label, tree, hrep⟩ := h
  obtain ⟨nodes', label', hok, hrep'⟩ :=
    insertAt_represents hrep hrep.nonempty (Path.components path) e
  exact ⟨nodes', hok, label', _, hrep'⟩

theorem Rooted.insertNewcArchive {x : List UInt8} {idx start stop : ℕ} {nodes nodes' : List Node}
    (h : Rooted nodes) (harchive : insertNewcArchive x idx nodes start = .ok (nodes', stop)) :
    Rooted nodes' := by
  obtain ⟨rs, -, -, hfold⟩ := insertNewcArchive_eq_ok.mp harchive
  obtain ⟨label, tree, hrep⟩ := h
  obtain ⟨nodes'', label', hok, hrep'⟩ := insertAll_represents hrep (files x idx rs)
  rw [hfold] at hok
  obtain rfl : nodes' = nodes'' := Except.ok.inj hok
  exact ⟨label', _, hrep'⟩

theorem answered_insertRecord {x : List UInt8} {idx : ℕ} {found : List (Inode × (ℕ × ℕ))}
    {nodes : List Node} {r : Record} (hnodes : Rooted nodes)
    (hname : r.name.1 + r.name.2 ≤ x.length) :
    Answered (insertRecord x idx found nodes r) ∧
      ∀ nodes', insertRecord x idx found nodes r = .ok nodes' → Rooted nodes' := by
  have hinsert : ∀ path e, Answered (Cpio.insert nodes path e) := by
    intro path e
    obtain ⟨nodes', hok, -⟩ := hnodes.insert path e
    exact answered_of_eq_ok hok
  unfold insertRecord
  rw [nameBytes_eq hname, unwrap, ok_bind]
  refine ⟨Answered.bind (answered_okOr ..) fun name _ => hinsert _ _, ?_⟩
  intro nodes' h
  obtain ⟨name, -, h⟩ := bind_eq_ok.mp h
  obtain ⟨nodes'', hok, hnodes''⟩ := hnodes.insert name ⟨fileKind r.mode, r.mode &&& 0o7777,
    ⟨idx, (dataRange found r).1, (dataRange found r).2⟩⟩
  exact Except.ok.inj (hok.symm.trans h) ▸ hnodes''

theorem answered_insertNewcArchive {x : List UInt8} {idx start : ℕ} {nodes : List Node}
    (hnodes : Rooted nodes) : Answered (insertNewcArchive x idx nodes start) := by
  unfold insertNewcArchive
  refine Answered.bind (answered_records ..) ?_
  rintro ⟨rs, pos⟩ hrecords
  have hnames := (archive_of_records hrecords).name_le
  refine Answered.bind (Answered.foldlM hnodes ?_) fun _ _ => trivial
  intro nodes r hr hnodes
  exact answered_insertRecord hnodes (hnames r hr)

/-- The calls that can be in progress: the one for the input `x`, and inside it
one for a member. -/
inductive Nested (x : List UInt8) (members : List (List UInt8)) : List Frame → Prop
  | returned : Nested x members []
  | input (pos : ℕ) : Nested x members [⟨0, x, pos⟩]
  | member {i : ℕ} {out : List UInt8} (pos pos' : ℕ) (hmember : members[i]? = some out) :
    Nested x members [⟨i + 1, out, pos'⟩, ⟨0, x, pos⟩]

/-- What every state of a run on `x` with the budget `b` is like. -/
structure Within (x : List UInt8) (b : ℕ) (c : Calls) : Prop where
  nested : Nested x c.unpacked.members c.stack
  /-- What the members take and what is left make up the budget. -/
  total : (c.unpacked.members.map List.length).sum + c.unpacked.budget = b
  rooted : Rooted c.unpacked.nodes

theorem Nested.length_le {x : List UInt8} {members : List (List UInt8)} {stack : List Frame}
    (h : Nested x members stack) : stack.length ≤ 2 := by
  cases h with
  | returned => exact Nat.zero_le 2
  | input pos => exact Nat.le_succ 1
  | member pos pos' hmember => exact Nat.le_refl 2

theorem Within.next {x : List UInt8} {b : ℕ} {c c' : Calls} (h : Within x b c)
    (hstep : step dec c = .ok (some c')) : Within x b c' := by
  obtain ⟨hnested, htotal, hrooted⟩ := h
  obtain ⟨f, callers, hstack, hc⟩ := step_cases hstep
  rw [hstack] at hnested
  rcases hc with rfl | ⟨nodes, pos, start, rfl, -, -, harchive⟩ |
    ⟨out, budget, pos, rfl, -, -, hidx, hbudget⟩
  · refine ⟨?_, htotal, hrooted⟩
    cases hnested with
    | input pos => exact .returned
    | member pos pos' hmember => exact .input pos
  · refine ⟨?_, htotal, hrooted.insertNewcArchive harchive⟩
    cases hnested with
    | input _ => exact .input pos
    | member _ _ hmember => exact .member _ pos hmember
  · refine ⟨?_, ?_, hrooted⟩
    · cases hnested with
      | input _ =>
        apply Nested.member
        simp
      | member _ _ hmember => cases hidx
    · simp only [List.map_append, List.sum_append, List.map_singleton, List.sum_singleton]
      omega

/-- The iteration moved its loop forward, or returned from it. -/
def Advances (c c' : Calls) : Prop :=
  ∃ f callers, c.stack = f :: callers ∧ (c'.stack = callers ∨ ∃ pos, f.pos < pos ∧
    (c'.stack = { f with pos := pos } :: callers ∨
      ∃ callee, c'.stack = callee :: { f with pos := pos } :: callers))

theorem advances_of_step {c c' : Calls} (h : step dec c = .ok (some c')) : Advances c c' := by
  obtain ⟨f, callers, hstack, hc⟩ := step_cases h
  refine ⟨f, callers, hstack, ?_⟩
  rcases hc with rfl | ⟨nodes, pos, start, rfl, hpos, -⟩ | ⟨out, budget, pos, rfl, hpos, -⟩
  · exact Or.inl rfl
  · exact Or.inr ⟨pos, hpos, Or.inl rfl⟩
  · exact Or.inr ⟨pos, hpos, Or.inr ⟨_, rfl⟩⟩

/-- An upper bound on the iterations to come: a byte of a buffer takes two at
most, and a call returns once. -/
def measure (c : Calls) : ℕ :=
  (c.stack.map fun f => 2 * (f.archive.length - f.pos) + 1).sum + 2 * c.unpacked.budget

theorem measure_lt_of_step {c c' : Calls} (h : step dec c = .ok (some c')) :
    measure c' < measure c := by
  obtain ⟨f, callers, hstack, hc⟩ := step_cases h
  unfold measure
  rw [hstack, List.map_cons, List.sum_cons]
  rcases hc with rfl | ⟨nodes, pos, start, rfl, hpos, hlt, -⟩ |
    ⟨out, budget, pos, rfl, hpos, hlt, -, hbudget⟩
  · simp only
    omega
  · simp only [List.map_cons, List.sum_cons]
    omega
  · simp only [List.map_cons, List.sum_cons]
    omega

/-- An iteration fails with a reported error, or as the stream decoder did. -/
theorem error_of_iterate {f : Frame} {s : Unpacked} {e : Fault} (hnodes : Rooted s.nodes)
    (h : iterate dec f s = .error e) :
    (∃ reported, e = .err reported) ∨
      ∃ codec input cap, dec.decodeStream codec input cap = .error e := by
  unfold iterate at h
  split at h
  · cases h
  rename_i n hrun
  split at h
  · split at h
    · exact Or.inl ⟨_, (Except.error.inj h).symm⟩
    rename_i codec hsniff hidx
    cases hdec : dec.decodeStream codec (f.archive.drop (f.pos + n)) s.budget with
    | error e' =>
      rw [hdec] at h
      obtain rfl := Except.error.inj h
      exact Or.inr ⟨_, _, _, hdec⟩
    | ok decoded =>
      obtain ⟨out, used⟩ := decoded
      -- the decoder keeps to the budget, so the subtraction does not underflow
      have hbudget : minus s.budget out.length = .ok (s.budget - out.length) :=
        minus_eq_ok.mpr ⟨dec.out_le hdec, rfl⟩
      rw [hdec, ok_bind] at h
      simp only [hbudget] at h
      cases h
  · split at h
    · exact Or.inl ⟨_, (Except.error.inj h).symm⟩
    · have hanswered : Answered (insertNewcArchive f.archive f.idx s.nodes (f.pos + n)) :=
        answered_insertNewcArchive hnodes
      have hall := hanswered.bind (f := fun next => return Turn.archive next.1 next.2)
        fun _ _ => trivial
      refine Or.inl (answered_error (α := Turn).mp ?_)
      rw [← h]
      exact hall

/-- The start of a run: `insert_chain` is called for the input. -/
def Calls.start (x : List UInt8) (nodes : List Node) (b : ℕ) : Calls :=
  ⟨[⟨0, x, 0⟩], ⟨[], nodes, b⟩⟩

theorem within_start {nodes : List Node} (hnodes : Rooted nodes) (x : List UInt8) (b : ℕ) :
    Within x b (.start x nodes b) :=
  ⟨.input 0, Nat.zero_add b, hnodes⟩

theorem finish_start (x : List UInt8) (nodes : List Node) (b : ℕ) :
    finish dec (.start x nodes b) = insertChain dec 0 x 0 ⟨[], nodes, b⟩ :=
  bind_pure _

theorem within_of_steps {x : List UInt8} {b n : ℕ} {nodes : List Node} {c : Calls}
    (hnodes : Rooted nodes) (hrun : Steps (step dec) (.start x nodes b) n c) : Within x b c :=
  hrun.keeps (fun _ _ hwithin hstep => hwithin.next hstep) (within_start hnodes x b)

/-- The calls of `insert_chain` end, as the function does that the machine runs. -/
theorem exists_end (dec : StreamDecoder) (x : List UInt8) (nodes : List Node) (b : ℕ) :
    ∃ n c, n ≤ 2 * x.length + 1 + 2 * b ∧ Steps (step dec) (.start x nodes b) n c ∧
      ((step dec c = .ok none ∧ insertChain dec 0 x 0 ⟨[], nodes, b⟩ = .ok c.unpacked) ∨
        ∃ e, step dec c = .error e ∧ insertChain dec 0 x 0 ⟨[], nodes, b⟩ = .error e) := by
  have hlower : ∀ s t, step dec s = .ok (some t) → measure t < measure s :=
    fun _ _ => measure_lt_of_step
  obtain ⟨n, c, hn, hrun, hstopped⟩ := exists_stopped hlower (.start x nodes b)
  have hfinish : insertChain dec 0 x 0 ⟨[], nodes, b⟩ = finish dec c := by
    rw [← finish_start]
    refine hrun.keeps (P := fun c => finish dec (.start x nodes b) = finish dec c) ?_ rfl
    intro s t hs hstep
    rw [hs, finish_eq_of_step hstep]
  refine ⟨n, c, hn, hrun, ?_⟩
  cases hstep : step dec c with
  | error e => exact Or.inr ⟨e, rfl, by rw [hfinish, finish_failed hstep]⟩
  | ok next =>
    cases next with
    | none => exact Or.inl ⟨rfl, by rw [hfinish, finish_halted hstep]⟩
    | some c' => exact absurd hstep (hstopped c')

theorem rooted_root : Rooted [Node.dir 0o755] := ⟨_, _, represents_root⟩

/-- Unpacking an input ends after a bounded number of iterations. Each of them
moves its loop forward or returns from it, no call is more than one level deep,
no subtraction from the budget underflows, and what has been decompressed fits
in the budget. -/
theorem insertChain_bounded (dec : StreamDecoder) (x : List UInt8) :
    (∃ n c, n ≤ 2 * x.length + 1 + 2 * maxBootFileBytes ∧
      Steps (step dec) (.start x [Node.dir 0o755] maxBootFileBytes) n c ∧
      ((step dec c = .ok none ∧
          insertChain dec 0 x 0 ⟨[], [Node.dir 0o755], maxBootFileBytes⟩ = .ok c.unpacked) ∨
        ∃ e, step dec c = .error e ∧
          insertChain dec 0 x 0 ⟨[], [Node.dir 0o755], maxBootFileBytes⟩ = .error e)) ∧
    (∀ n c, Steps (step dec) (.start x [Node.dir 0o755] maxBootFileBytes) n c →
      c.stack.length ≤ 2 ∧ (∀ c', step dec c = .ok (some c') → Advances c c') ∧
      ∀ e, step dec c = .error e → (∃ reported, e = .err reported) ∨
        ∃ codec input cap, dec.decodeStream codec input cap = .error e) ∧
    ∀ t, insertChain dec 0 x 0 ⟨[], [Node.dir 0o755], maxBootFileBytes⟩ = .ok t →
      (t.members.map List.length).sum ≤ maxBootFileBytes := by
  refine ⟨exists_end dec x _ _, ?_, ?_⟩
  · intro n c hrun
    have hwithin := within_of_steps rooted_root hrun
    refine ⟨hwithin.nested.length_le, fun c' => advances_of_step, ?_⟩
    intro e herr
    obtain ⟨f, callers, -, hturn⟩ := iterate_of_step herr
    exact error_of_iterate hwithin.rooted hturn
  · intro t ht
    obtain ⟨n, c, -, hrun, ⟨-, hok⟩ | ⟨e, -, herr⟩⟩ :=
      exists_end dec x [Node.dir 0o755] maxBootFileBytes
    · obtain rfl : t = c.unpacked := Except.ok.inj (ht.symm.trans hok)
      have htotal := (within_of_steps rooted_root hrun).total
      exact htotal ▸ Nat.le_add_right _ _
    · rw [herr] at ht
      cases ht

end Steps

end Lamfold.Cpio
