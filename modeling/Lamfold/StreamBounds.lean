import Lamfold.Answers
import Lamfold.DecodeStream
import Lamfold.Lz4Block

/-!
Bounds of stream decoding. In every turn of every loop the output stays within its cap,
positions stay in the input and no subtraction goes below zero; each loop ends, and a
stream that is decoded has used some of the input and no more than there is.
-/
namespace Lamfold.Streams

open Effects Bytes Loops Machines

/-- A loop stays in `P`, takes at most `bound` turns, and no turn panics. -/
structure Bounded {σ β : Type} (body : Loop Fault σ β) (start : σ) (P : σ → Prop) (bound : ℕ) :
    Prop where
  holds : ∀ {n t}, Steps (iterations body) start n t → P t
  count_le : ∀ {n t}, Steps (iterations body) start n t → n ≤ bound
  answered : ∀ {n t}, Steps (iterations body) start n t → Answered (body t)

section Loops

variable {σ β : Type} {body : Loop Fault σ β} {measure : σ → ℕ} {P : σ → Prop} {start : σ}

theorem Bounded.intro (hlower : Lowers measure body) (hstart : P start)
    (hnext : ∀ {s t}, P s → body s = .ok (.inr t) → P t)
    (hanswered : ∀ {s}, P s → Answered (body s)) : Bounded body start P (measure start) where
  holds hrun := keeps_iterations hnext hrun hstart
  count_le hrun := iterations_le hlower hrun
  answered hrun := hanswered (keeps_iterations hnext hrun hstart)

theorem Bounded.weaken {Q : σ → Prop} {bound bound' : ℕ} (h : Bounded body start P bound)
    (hPQ : ∀ {s}, P s → Q s) (hle : bound ≤ bound') : Bounded body start Q bound' where
  holds hrun := hPQ (h.holds hrun)
  count_le hrun := (h.count_le hrun).trans hle
  answered := h.answered

theorem Bounded.answered_run {bound : ℕ} (h : Bounded body start P bound)
    (hlower : Lowers measure body) : Answered (run body measure hlower start) := by
  obtain ⟨n, t, hrun, ⟨b, -, hok⟩ | ⟨e, hbody, herror⟩⟩ := run_ends hlower start
  · rw [hok]
    trivial
  · have hans := h.answered hrun
    rw [hbody] at hans
    rw [herror]
    cases e with
    | err e => trivial
    | panic => exact hans
    | hang => exact hans

end Loops

section Decode

variable {δ ρ : Type} {d : Decoders δ ρ} {input : List UInt8} {maxOut : ℕ}

theorem answered_pushCapped (out chunk : List UInt8) (max : ℕ) :
    Answered (pushCapped d out chunk max) := by
  unfold pushCapped
  refine Answered.ite (fun _ => answered_fail _) fun _ => ?_
  exact Answered.ite (fun _ => trivial) fun _ => answered_fail _

/-- The buffer of a step has all the bytes that the step reports. -/
theorem answered_chunk {chunk : List UInt8} {count n : ℕ} (hlen : chunk.length = n)
    (hle : count ≤ n) : Answered (unwrap (slice chunk 0 count)) := by
  rw [slice_eq_some.mpr ⟨by omega, rfl⟩]
  trivial

theorem answered_readTurn {cap : Outcome ℕ} (hcap : Answered cap) (what : String) (s : Reading ρ) :
    Answered (readTurn d cap what s) := by
  unfold readTurn
  split
  · exact answered_fail _
  · rename_i r hread
    refine Answered.ite (fun _ => trivial) fun _ => ?_
    refine (answered_chunk (d.read_chunk hread) (d.count_le hread)).bind fun _ _ => ?_
    refine hcap.bind fun _ _ => ?_
    exact (answered_pushCapped _ _ _).bind fun _ _ => trivial

theorem readTurn_bounded (d : Decoders δ ρ) (max : ℕ) (what : String) (reader : ρ)
    (rest : List UInt8) : Bounded (readTurn d (.ok max) what) ⟨reader, rest, []⟩
      (fun s => s.out.length ≤ max) max := by
  apply Bounded.intro (readTurn_lowers d (.ok max) what) (Nat.zero_le max)
  · intro s t _ h
    obtain ⟨r, max', -, -, -, -, hmax, -, hle⟩ := readTurn_next h
    obtain rfl := Except.ok.inj hmax
    exact hle
  · intro s _
    exact answered_readTurn (answered_ok max) what s

theorem answered_readAllCapped (d : Decoders δ ρ) (max : ℕ) (what : String) (reader : ρ)
    (rest : List UInt8) : Answered (readAllCapped d (.ok max) what reader rest) :=
  (readTurn_bounded d max what reader rest).answered_run _

/-- The buffer of a frame has the room that the output has left. -/
theorem minus_out {out : List UInt8} (hle : out.length ≤ maxOut) :
    minus maxOut out.length = .ok (maxOut - out.length) := minus_eq_ok.mpr ⟨hle, rfl⟩

theorem frameTurn_bounded (d : Decoders δ ρ) {out : List UInt8} (hle : out.length ≤ maxOut)
    (what : String) (reader : ρ) (rest : List UInt8) :
    Bounded (readTurn d (minus maxOut out.length) what) ⟨reader, rest, []⟩
      (fun s => out.length + s.out.length ≤ maxOut) maxOut := by
  rw [minus_out hle]
  apply (readTurn_bounded d (maxOut - out.length) what reader rest).weaken
  · intro s hs
    omega
  · exact Nat.sub_le _ _

theorem inflateTurn_bounded (d : Decoders δ ρ) (input : List UInt8) (maxOut : ℕ) :
    Bounded (inflateTurn d input maxOut) ⟨d.inflateInit, 0, []⟩
      (fun s => s.pos ≤ input.length ∧ s.out.length ≤ maxOut) (input.length + maxOut) := by
  apply Bounded.intro (inflateTurn_lowers d input maxOut) ⟨Nat.zero_le _, Nat.zero_le _⟩
  · intro s t _ h
    obtain ⟨r, -, hpos, out, -, hle, hlast | ⟨hnext, -⟩⟩ := inflateTurn_eq_ok h
    · cases hlast
    · obtain rfl := Sum.inr.inj hnext
      exact ⟨hpos, hle⟩
  · intro s hs
    have hrest : getFrom input s.pos = some (input.drop s.pos) := getFrom_eq_some.mpr ⟨hs.1, rfl⟩
    unfold inflateTurn
    rw [hrest]
    refine Answered.bind trivial fun rest _ => ?_
    refine (answered_chunk (d.inflate_chunk _ _ _) (d.written_le _ _ _)).bind fun _ _ => ?_
    refine (answered_pushCapped _ _ _).bind fun _ _ => ?_
    split
    · trivial
    · exact Answered.ite (fun _ => trivial) fun _ => answered_fail _
    · exact answered_fail _

theorem inflateRawStream_le {out : List UInt8} {used : ℕ}
    (h : inflateRawStream d input maxOut = .ok (out, used)) :
    out.length ≤ maxOut ∧ used ≤ input.length := by
  obtain ⟨s, -, hleave⟩ := run_eq_ok (P := fun _ => True) trivial (fun _ _ => trivial) h
  obtain ⟨r, -, hpos, out', -, hle, hlast | ⟨hnext, -⟩⟩ := inflateTurn_eq_ok hleave
  · obtain ⟨rfl, rfl⟩ := Prod.mk.inj (Sum.inl.inj hlast)
    exact ⟨hle, hpos⟩
  · cases hnext

theorem answered_skipString (input : List UInt8) (flg flag : UInt8) (pos : ℕ) :
    Answered (skipString input flg flag pos) := by
  unfold skipString
  exact Answered.ite (fun _ => (answered_okOr _ _).bind fun _ _ => trivial) fun _ => trivial

theorem answered_gzip (d : Decoders δ ρ) (input : List UInt8) (maxOut : ℕ) :
    Answered (gzip d input maxOut) := by
  unfold gzip
  refine Answered.ite (fun _ => answered_fail _) fun hlen => ?_
  have hid : slice input 0 3 = some ((input.drop 0).take 3) := slice_eq_some.mpr ⟨by omega, rfl⟩
  have hflg : input[3]? = some (input.getD 3 0) := by
    rw [List.getElem?_eq_getElem (by omega), List.getD_eq_getElem?_getD,
      List.getElem?_eq_getElem (by omega)]
    rfl
  rw [hid, hflg]
  refine Answered.bind trivial fun id _ => Answered.bind trivial fun flg _ => ?_
  refine Answered.ite (fun _ => answered_fail _) fun _ => ?_
  have hextra : Answered (skipExtra input flg 10) := by
    unfold skipExtra
    exact Answered.ite (fun _ => (answered_okOr _ _).bind fun _ _ => trivial) fun _ => trivial
  refine hextra.bind fun _ _ => ?_
  refine (answered_skipString _ _ _ _).bind fun _ _ => ?_
  refine (answered_skipString _ _ _ _).bind fun _ _ => ?_
  refine (answered_okOr _ _).bind fun body _ => ?_
  refine ((inflateTurn_bounded d body maxOut).answered_run _).bind fun _ _ => ?_
  refine (answered_okOr _ _).bind fun _ _ => ?_
  exact Answered.ite (fun _ => answered_fail _) fun _ => trivial

theorem gzip_used {out : List UInt8} {used : ℕ} (h : gzip d input maxOut = .ok (out, used)) :
    out.length ≤ maxOut ∧ 0 < used ∧ used ≤ input.length := by
  unfold gzip at h
  split at h
  · exact absurd h (fail_ne_ok _ _)
  obtain ⟨id, -, h⟩ := bind_eq_ok.mp h
  obtain ⟨flg, -, h⟩ := bind_eq_ok.mp h
  split at h
  · exact absurd h (fail_ne_ok _ _)
  obtain ⟨p₁, -, h⟩ := bind_eq_ok.mp h
  obtain ⟨p₂, -, h⟩ := bind_eq_ok.mp h
  obtain ⟨p₃, -, h⟩ := bind_eq_ok.mp h
  obtain ⟨body, -, h⟩ := bind_eq_ok.mp h
  obtain ⟨⟨out', used'⟩, hinflate, h⟩ := bind_eq_ok.mp h
  obtain ⟨trailer, htrailer, h⟩ := bind_eq_ok.mp h
  obtain ⟨-, h⟩ := ite_error_eq_ok.mp h
  obtain ⟨rfl, rfl⟩ := Prod.mk.inj (Except.ok.inj h)
  have hin := (slice_eq_some.mp (okOr_eq_ok.mp htrailer)).1
  exact ⟨(inflateRawStream_le hinflate).1, by omega, hin⟩

theorem answered_skippableSize (rest : List UInt8) : Answered (skippableSize rest) := by
  unfold skippableSize
  refine Answered.ite (fun hlen => ?_) fun _ => trivial
  rw [List.getElem?_eq_getElem (by omega), slice_eq_some.mpr ⟨by omega, rfl⟩,
    slice_eq_some.mpr ⟨by omega, rfl⟩]
  refine Answered.bind trivial fun _ _ => Answered.bind trivial fun _ _ => ?_
  exact Answered.ite (fun _ => trivial) fun _ => trivial

/-- What is left of the input, and less once there is a frame. -/
structure Frames.Within (input : List UInt8) (maxOut : ℕ) (s : Frames) : Prop where
  out_le : s.out.length ≤ maxOut
  rest_le : s.rest.length ≤ input.length
  rest_lt : 0 < s.frames → s.rest.length < input.length

theorem Frames.Within.next {s t : Frames} (hs : s.Within input maxOut)
    (h : zstdTurn d maxOut s = .ok (.inr t)) : t.Within input maxOut := by
  have hrest := hs.rest_le
  obtain ⟨hlt, ⟨hout, -⟩ | ⟨hout, -⟩⟩ := zstdTurn_next h
  · exact ⟨hout ▸ hs.out_le, by omega, fun _ => by omega⟩
  · exact ⟨hout, by omega, fun _ => by omega⟩

theorem zstdTurn_bounded (d : Decoders δ ρ) (input : List UInt8) (maxOut : ℕ) :
    Bounded (zstdTurn d maxOut) ⟨input, [], 0⟩ (Frames.Within input maxOut) input.length := by
  have hstart : Frames.Within input maxOut ⟨input, [], 0⟩ :=
    ⟨Nat.zero_le _, le_refl _, fun h => absurd h (lt_irrefl 0)⟩
  apply Bounded.intro (zstdTurn_lowers d maxOut) hstart
  · intro s t hs h
    exact hs.next h
  · intro s hs
    unfold zstdTurn
    refine (answered_skippableSize _).bind fun size _ => ?_
    cases size with
    | some size => exact (answered_okOr _ _).bind fun _ _ => trivial
    | none =>
      refine Answered.ite (fun _ => trivial) fun _ => ?_
      refine (answered_okOr _ _).bind fun reader _ => ?_
      rw [minus_out hs.out_le]
      refine (answered_readAllCapped d _ _ _ _).bind fun _ _ => ?_
      exact (answered_pushCapped _ _ _).bind fun _ _ => trivial

theorem zstd_run {s : Frames}
    (h : run (zstdTurn d maxOut) _ (zstdTurn_lowers d maxOut) ⟨input, [], 0⟩ = .ok s) :
    s.Within input maxOut := by
  have hstart : Frames.Within input maxOut ⟨input, [], 0⟩ :=
    ⟨Nat.zero_le _, le_refl _, fun h => absurd h (lt_irrefl 0)⟩
  obtain ⟨t, ht, hleave⟩ := run_eq_ok hstart (fun hs hnext => hs.next hnext) h
  exact zstdTurn_leave hleave ▸ ht

theorem answered_zstd (d : Decoders δ ρ) (input : List UInt8) (maxOut : ℕ) :
    Answered (zstd d input maxOut) := by
  refine ((zstdTurn_bounded d input maxOut).answered_run _).bind fun s hs => ?_
  refine Answered.ite (fun _ => answered_fail _) fun _ => ?_
  exact (answered_minus.mpr (zstd_run hs).rest_le).bind fun _ _ => trivial

theorem zstd_used {out : List UInt8} {used : ℕ} (h : zstd d input maxOut = .ok (out, used)) :
    out.length ≤ maxOut ∧ 0 < used ∧ used ≤ input.length := by
  obtain ⟨s, hs, h⟩ := bind_eq_ok.mp h
  have hwithin := zstd_run hs
  obtain ⟨hframes, h⟩ := ite_error_eq_ok.mp h
  obtain ⟨n, hn, h⟩ := bind_eq_ok.mp h
  obtain ⟨-, rfl⟩ := minus_eq_ok.mp hn
  obtain ⟨rfl, rfl⟩ := Prod.mk.inj (Except.ok.inj h)
  have hlt := hwithin.rest_lt (Nat.pos_of_ne_zero hframes)
  exact ⟨hwithin.out_le, by omega, Nat.sub_le _ _⟩

/-- A reader that drains a shorter input used some of it. -/
theorem read_used {what : String} {reader : ρ} {rest last out : List UInt8} {used : ℕ}
    {b : List UInt8 × ℕ} (hread : readAllCapped d (.ok maxOut) what reader rest = .ok (out, last))
    (hbyte : last.length < input.length) (hused : minus input.length last.length = .ok used)
    (hb : b = (out, used)) : b.1.length ≤ maxOut ∧ 0 < b.2 ∧ b.2 ≤ input.length := by
  subst hb
  obtain ⟨-, rfl⟩ := minus_eq_ok.mp hused
  refine ⟨?_, by dsimp only; omega, Nat.sub_le _ _⟩
  obtain ⟨-, rfl | ⟨max, hmax, hle⟩⟩ := readAllCapped_eq_ok hread
  · exact Nat.zero_le _
  · exact Except.ok.inj hmax ▸ hle

theorem answered_xz (d : Decoders δ ρ) (input : List UInt8) (maxOut : ℕ) :
    Answered (xz d input maxOut) := by
  refine (answered_readAllCapped d maxOut _ _ _).bind fun b hb => ?_
  have hbyte := d.xz_byte (readAllCapped_eq_ok hb).1
  exact (answered_minus.mpr hbyte.le).bind fun _ _ => trivial

theorem xz_used {out : List UInt8} {used : ℕ} (h : xz d input maxOut = .ok (out, used)) :
    out.length ≤ maxOut ∧ 0 < used ∧ used ≤ input.length := by
  obtain ⟨⟨out', last⟩, hread, h⟩ := bind_eq_ok.mp h
  obtain ⟨n, hn, h⟩ := bind_eq_ok.mp h
  have hbyte := d.xz_byte (readAllCapped_eq_ok hread).1
  exact read_used hread hbyte hn (Except.ok.inj h).symm

theorem answered_lzma (d : Decoders δ ρ) (input : List UInt8) (maxOut : ℕ) :
    Answered (lzma d input maxOut) := by
  refine (answered_okOr _ _).bind fun reader hreader => ?_
  refine (answered_readAllCapped d maxOut _ _ _).bind fun b hb => ?_
  have hbyte := d.lzma_byte (okOr_eq_ok.mp hreader) (readAllCapped_eq_ok hb).1
  exact (answered_minus.mpr hbyte.le).bind fun _ _ => trivial

theorem lzma_used {out : List UInt8} {used : ℕ} (h : lzma d input maxOut = .ok (out, used)) :
    out.length ≤ maxOut ∧ 0 < used ∧ used ≤ input.length := by
  obtain ⟨⟨reader, rest⟩, hreader, h⟩ := bind_eq_ok.mp h
  obtain ⟨⟨out', last⟩, hread, h⟩ := bind_eq_ok.mp h
  obtain ⟨n, hn, h⟩ := bind_eq_ok.mp h
  have hbyte := d.lzma_byte (okOr_eq_ok.mp hreader) (readAllCapped_eq_ok hread).1
  exact read_used hread hbyte hn (Except.ok.inj h).symm

theorem answered_growBlock {out : List UInt8} (hle : out.length ≤ maxOut) :
    Answered (growBlock d out maxOut) := by
  unfold growBlock
  refine (answered_minus.mpr hle).bind fun left _ => ?_
  exact Answered.ite (fun _ => trivial) fun _ => answered_fail _

theorem answered_decodeBlock {block out grown : List UInt8} (hle : out.length ≤ grown.length) :
    Answered (decodeBlock d block out grown maxOut) := by
  unfold decodeBlock
  dsimp only
  rw [getFrom_eq_some.mpr ⟨hle, rfl⟩]
  refine Answered.bind trivial fun target _ => ?_
  split
  · trivial
  · exact Answered.ite (fun _ => answered_fail _) fun _ => answered_fail _

/-- The position is in the input, behind the magic, and the output within the cap, also
with room for one more block. -/
structure Blocks.Within (d : Decoders δ ρ) (input : List UInt8) (maxOut : ℕ) (s : Blocks) :
    Prop where
  pos_ge : 4 ≤ s.pos
  pos_le : s.pos ≤ input.length
  out_le : s.out.length ≤ maxOut
  grown_le : ∀ grown, growBlock d s.out maxOut = .ok grown → grown.length ≤ maxOut

theorem Blocks.Within.of_le {s : Blocks} (hge : 4 ≤ s.pos) (hle : s.pos ≤ input.length)
    (hout : s.out.length ≤ maxOut) : s.Within d input maxOut := by
  refine ⟨hge, hle, hout, ?_⟩
  intro grown hgrown
  obtain ⟨room, -, hcap⟩ := growBlock_eq_ok hgrown
  exact hcap

theorem Blocks.Within.next {s t : Blocks} (hs : s.Within d input maxOut)
    (h : lz4Turn d input maxOut s = .ok (.inr t)) : t.Within d input maxOut := by
  have hge := hs.pos_ge
  obtain ⟨hpos, hle, hout | hout⟩ := lz4Turn_next h
  · exact .of_le (by omega) hle (hout ▸ hs.out_le)
  · exact .of_le (by omega) hle hout

theorem lz4Turn_bounded (d : Decoders δ ρ) (maxOut : ℕ) (hmagic : 4 ≤ input.length) :
    Bounded (lz4Turn d input maxOut) ⟨4, []⟩ (Blocks.Within d input maxOut) input.length := by
  have hstart : Blocks.Within d input maxOut ⟨4, []⟩ := .of_le (le_refl 4) hmagic (Nat.zero_le _)
  refine (Bounded.intro (lz4Turn_lowers d input maxOut) hstart ?_ ?_).weaken (fun h => h)
    (Nat.sub_le _ _)
  · intro s t hs h
    exact hs.next h
  · intro s hs
    unfold lz4Turn
    split
    · trivial
    · rename_i head hhead
      have hin := (slice_eq_some.mp hhead).1
      refine Answered.ite (fun _ => trivial) fun _ => ?_
      refine Answered.ite (fun _ => trivial) fun _ => ?_
      refine (answered_minus.mpr hs.pos_le).bind fun left hleft => ?_
      obtain ⟨-, rfl⟩ := minus_eq_ok.mp hleft
      refine (answered_minus.mpr (by omega)).bind fun left hleft => ?_
      obtain ⟨-, rfl⟩ := minus_eq_ok.mp hleft
      refine Answered.ite (fun _ => trivial) fun hsize => ?_
      rw [slice_eq_some.mpr ⟨by omega, rfl⟩]
      refine Answered.bind trivial fun block _ => ?_
      refine (answered_growBlock hs.out_le).bind fun grown hgrown => ?_
      obtain ⟨room, rfl, -⟩ := growBlock_eq_ok hgrown
      refine (answered_decodeBlock ?_).bind fun _ _ => trivial
      rw [List.length_append]
      exact Nat.le_add_right _ _

theorem length_of_magic (h : ¬(!lz4LegacyMagic.isPrefixOf input) = true) : 4 ≤ input.length := by
  have hmagic : lz4LegacyMagic.isPrefixOf input = true := by simpa using h
  have hle := (List.isPrefixOf_iff_prefix.mp hmagic).length_le
  exact hle

theorem answered_lz4Legacy (d : Decoders δ ρ) (input : List UInt8) (maxOut : ℕ) :
    Answered (lz4Legacy d input maxOut) := by
  unfold lz4Legacy
  refine Answered.ite (fun _ => answered_fail _) fun hmagic => ?_
  exact (lz4Turn_bounded d maxOut (length_of_magic hmagic)).answered_run _

theorem lz4Legacy_used {out : List UInt8} {used : ℕ}
    (h : lz4Legacy d input maxOut = .ok (out, used)) :
    out.length ≤ maxOut ∧ 0 < used ∧ used ≤ input.length := by
  unfold lz4Legacy at h
  split at h
  · exact absurd h (fail_ne_ok _ _)
  · rename_i hmagic
    have hstart : Blocks.Within d input maxOut ⟨4, []⟩ :=
      .of_le (le_refl 4) (length_of_magic hmagic) (Nat.zero_le _)
    obtain ⟨t, ht, hleave⟩ := run_eq_ok hstart (fun hs hnext => hs.next hnext) h
    obtain ⟨rfl, rfl⟩ := Prod.mk.inj (lz4Turn_leave hleave)
    exact ⟨ht.out_le, Nat.lt_of_lt_of_le (by decide) ht.pos_ge, ht.pos_le⟩

theorem answered_decodeStream (d : Decoders δ ρ) (features : Features) (codec : StreamCodec)
    (input : List UInt8) (maxOut : ℕ) : Answered (decodeStream d features codec input maxOut) := by
  cases codec with
  | gzip => exact Answered.ite (fun _ => answered_gzip d input maxOut) fun _ => answered_fail _
  | zstd => exact Answered.ite (fun _ => answered_zstd d input maxOut) fun _ => answered_fail _
  | xz => exact Answered.ite (fun _ => answered_xz d input maxOut) fun _ => answered_fail _
  | lzma => exact Answered.ite (fun _ => answered_lzma d input maxOut) fun _ => answered_fail _
  | lz4Legacy =>
    exact Answered.ite (fun _ => answered_lz4Legacy d input maxOut) fun _ => answered_fail _
  | bzip2 => exact answered_fail _
  | lzo => exact answered_fail _

/-- A format that is compiled in, or refused. -/
theorem feature_eq_ok {α : Type} {p : Prop} [Decidable p] {x : Outcome α} {e : FoldError} {a : α}
    (h : (if p then x else fail e) = .ok a) : x = .ok a := by
  split at h
  · exact h
  · exact absurd h (fail_ne_ok _ _)

theorem decodeStream_used {features : Features} {codec : StreamCodec} {out : List UInt8}
    {used : ℕ} (h : decodeStream d features codec input maxOut = .ok (out, used)) :
    out.length ≤ maxOut ∧ 0 < used ∧ used ≤ input.length := by
  cases codec with
  | gzip => exact gzip_used (feature_eq_ok h)
  | zstd => exact zstd_used (feature_eq_ok h)
  | xz => exact xz_used (feature_eq_ok h)
  | lzma => exact lzma_used (feature_eq_ok h)
  | lz4Legacy => exact lz4Legacy_used (feature_eq_ok h)
  | bzip2 => exact absurd h (fail_ne_ok _ _)
  | lzo => exact absurd h (fail_ne_ok _ _)

/-- `decode_stream` meets the contract that its callers rely on. -/
def Decoders.streamDecoder (d : Decoders δ ρ) (features : Features) : StreamDecoder where
  decodeStream := decodeStream d features
  used_pos h := (decodeStream_used h).2.1
  used_le h := (decodeStream_used h).2.2
  out_le h := (decodeStream_used h).1

/-- Decoding a stream ends, without a panic, with an output within the cap and some of the
input used, and so does every turn of its loops before. -/
theorem decodeStream_bounded (d : Decoders δ ρ) (features : Features) (codec : StreamCodec)
    (input : List UInt8) (maxOut : ℕ) :
    Answered (decodeStream d features codec input maxOut) ∧
    (∀ out used, decodeStream d features codec input maxOut = .ok (out, used) →
      out.length ≤ maxOut ∧ 0 < used ∧ used ≤ input.length) ∧
    (∀ body, Bounded (inflateTurn d body maxOut) ⟨d.inflateInit, 0, []⟩
      (fun s : Inflating δ => s.pos ≤ body.length ∧ s.out.length ≤ maxOut) (body.length + maxOut)) ∧
    Bounded (zstdTurn d maxOut) ⟨input, [], 0⟩ (Frames.Within input maxOut) input.length ∧
    (∀ (out : List UInt8) reader rest, out.length ≤ maxOut →
      Bounded (readTurn d (minus maxOut out.length) "zstd read failed") ⟨reader, rest, []⟩
        (fun s : Reading ρ => out.length + s.out.length ≤ maxOut) maxOut) ∧
    (∀ what reader rest, Bounded (readTurn d (.ok maxOut) what) ⟨reader, rest, []⟩
      (fun s : Reading ρ => s.out.length ≤ maxOut) maxOut) ∧
    (4 ≤ input.length →
      Bounded (lz4Turn d input maxOut) ⟨4, []⟩ (Blocks.Within d input maxOut) input.length) := by
  refine ⟨answered_decodeStream d features codec input maxOut, ?_, ?_, ?_, ?_, ?_, ?_⟩
  · intro out used h
    exact decodeStream_used h
  · intro body
    exact inflateTurn_bounded d body maxOut
  · exact zstdTurn_bounded d input maxOut
  · intro out reader rest hle
    exact frameTurn_bounded d hle _ reader rest
  · intro what reader rest
    exact readTurn_bounded d maxOut what reader rest
  · intro hmagic
    exact lz4Turn_bounded d maxOut hmagic

end Decode

/-- Decoders for LZ4 only: every other one fails at once. -/
def lz4Only : Decoders Unit Unit where
  inflateInit := ()
  inflate _ _ n := ⟨(), 0, 0, List.replicate n 0, .failed⟩
  zstdReader _ := none
  xzReader input := ((), input)
  lzmaReader _ := none
  read _ _ _ := none
  lz4Block block n := Lz4Block.decode block n []
  reserve _ _ := true
  consumed_le _ _ _ := Nat.zero_le _
  written_le _ _ _ := Nat.zero_le _
  inflate_chunk _ _ _ := List.length_replicate
  count_le h := nomatch h
  read_chunk h := nomatch h
  lz4Block_le h := Lz4Block.decode_length_le h
  zstd_magic h := nomatch h
  xz_byte h := by cases h <;> contradiction
  lzma_byte h := nomatch h

def allFeatures : Features := ⟨true, true, true, true⟩

/-- The block of the literal `a` fits wherever there is room for a byte. -/
theorem literal_decodes {room : ℕ} (hroom : 1 ≤ room) :
    lz4Only.lz4Block [0x10, 0x61] room = some [0x61] := by
  have hparse : Lz4Block.parse [0x10, 0x61] = some [⟨[0x61], none⟩] := by
    rw [Lz4Block.parse]
    rfl
  show Lz4Block.decode [0x10, 0x61] room [] = some [0x61]
  unfold Lz4Block.decode
  rw [hparse]
  exact if_pos hroom

/-- The magic, and one block with the literal `a`. -/
def oneBlock : List UInt8 := [0x02, 0x21, 0x4C, 0x18, 2, 0, 0, 0, 0x10, 0x61]

theorem oneBlock_decoded :
    decodeStream lz4Only allFeatures .lz4Legacy oneBlock 16 = .ok ([0x61], 10) := by
  have hdecoded : decodeBlock lz4Only [0x10, 0x61] [] (List.replicate 16 0) 16 = .ok [0x61] := by
    have htarget : getFrom (List.replicate 16 0) ([] : List UInt8).length =
        some (List.replicate 16 0) := rfl
    unfold decodeBlock
    dsimp only
    rw [htarget, unwrap, ok_bind, List.length_replicate, literal_decodes (by decide)]
    rfl
  have hfirst : lz4Turn lz4Only oneBlock 16 ⟨4, []⟩ = .ok (.inr ⟨10, [0x61]⟩) := by
    show (do
      let out ← decodeBlock lz4Only [0x10, 0x61] [] (List.replicate 16 0) 16
      return Sum.inr (Blocks.mk 10 out)) = .ok (.inr ⟨10, [0x61]⟩)
    rw [hdecoded]
    rfl
  have hlast : lz4Turn lz4Only oneBlock 16 ⟨10, [0x61]⟩ = .ok (.inl ([0x61], 10)) := rfl
  show lz4Legacy lz4Only oneBlock 16 = .ok ([0x61], 10)
  unfold lz4Legacy
  rw [if_neg (by decide), run_of_next _ hfirst, run_of_leave _ hlast]

theorem decodeStream_bounded_oneBlock :
    decodeStream lz4Only allFeatures .lz4Legacy oneBlock 16 = .ok ([0x61], 10) ∧
    [(0x61 : UInt8)].length ≤ 16 ∧ 0 < 10 ∧ 10 ≤ oneBlock.length :=
  ⟨oneBlock_decoded,
    (decodeStream_bounded lz4Only allFeatures .lz4Legacy oneBlock 16).2.1 _ _ oneBlock_decoded⟩

end Lamfold.Streams
