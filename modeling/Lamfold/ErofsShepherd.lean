import Lamfold.ErofsState

/-!
Verified reads. Every copy into the caller's buffer takes bytes of a block that
the verifier accepted earlier in the same call, whether the call succeeds or
not, and a read that succeeds had every block of its window accepted.
-/
namespace Lamfold.Erofs

open Effects Bytes

variable {ρ : Type} {codecs : Codecs ρ}

theorem readInline_length {vol : Volume} {inode : Inode} {fullBytes base stop p : ℕ}
    {out : List UInt8} (h : readInline vol inode fullBytes base stop p = .ok out) :
    out.length = stop - p := by
  fun_induction readInline vol inode fullBytes base stop p generalizing out with
  | case1 p hp hfull segEnd =>
    rename_i ih
    obtain ⟨disk, -, h⟩ := bind_eq_ok.mp h
    obtain ⟨seg, hseg, h⟩ := bind_eq_ok.mp h
    obtain ⟨rest, hrest, h⟩ := bind_eq_ok.mp h
    cases h
    rw [List.length_append, Source.readAt_length hseg, ih hrest]
    omega
  | case2 p hp hfull =>
    obtain ⟨disk, -, h⟩ := bind_eq_ok.mp h
    exact Source.readAt_length h
  | case3 p hp =>
    cases h
    simp only [List.length_nil]
    omega

theorem readChunk_length {vol : Volume} {table idx within n : ℕ} {out : List UInt8}
    (h : readChunk vol table idx within n = .ok out) : out.length = n := by
  obtain ⟨entry, -, h⟩ := bind_eq_ok.mp h
  obtain ⟨e, -, h⟩ := bind_eq_ok.mp h
  dsimp only at h
  split_ifs at h
  · cases h
    exact List.length_replicate
  · obtain ⟨disk, -, h⟩ := bind_eq_ok.mp h
    exact Source.readAt_length h

theorem readChunks_length {vol : Volume} {chunkbits table stop p : ℕ} {out : List UInt8}
    (h : readChunks vol chunkbits table stop p = .ok out) : out.length = stop - p := by
  fun_induction readChunks vol chunkbits table stop p generalizing out with
  | case1 p hp idx within =>
    rename_i ih
    obtain ⟨-, -, h⟩ := bind_eq_ok.mp h
    obtain ⟨seg, hseg, h⟩ := bind_eq_ok.mp h
    obtain ⟨rest, hrest, h⟩ := bind_eq_ok.mp h
    cases h
    have hlt : p < (p / 2 ^ chunkbits + 1) * 2 ^ chunkbits := by
      rw [Nat.mul_comm]
      exact Nat.lt_mul_div_succ p (Nat.two_pow_pos chunkbits)
    rw [List.length_append, readChunk_length hseg, ih hrest]
    omega
  | case2 p hp =>
    cases h
    simp only [List.length_nil]
    omega

theorem readFlat_length {vol : Volume} {inode : Inode} {off stop : ℕ} {out : List UInt8}
    (h : readFlat vol inode off stop = .ok out) : out.length = stop - off := by
  unfold readFlat at h
  split_ifs at h
  · obtain ⟨base, -, h⟩ := bind_eq_ok.mp h
    obtain ⟨disk, -, h⟩ := bind_eq_ok.mp h
    exact Source.readAt_length h
  · obtain ⟨base, -, h⟩ := bind_eq_ok.mp h
    exact readInline_length h
  · unfold readChunked at h
    dsimp only at h
    split_ifs at h
    · exact absurd h (fail_ne_ok _ _)
    · exact absurd h (fail_ne_ok _ _)
    · exact absurd h (fail_ne_ok _ _)
    · exact absurd h (fail_ne_ok _ _)
    · obtain ⟨aligned, -, h⟩ := bind_eq_ok.mp h
      exact readChunks_length h
  · exact absurd h (fail_ne_ok _ _)

theorem readDecoded_spec {nid : NodeId} {inode : Inode} {bs off stop : ℕ} :
    Triple (Fixed nid inode bs) (readDecoded codecs nid off stop)
      (fun out fs => Fixed nid inode bs fs ∧ out.length = stop - off)
      (Fixed nid inode bs) := by
  refine Triple.bind (Preserves.triple (materialize_fixed codecs nid)) ?_
  intro _
  refine Triple.get_bind ?_
  intro fs hfs
  refine Triple.bind (R := fun _ t => t = fs) ?_ ?_
  · refine Triple.lift ?_ ?_
    · intro s data hs _
      exact hs
    · intro s hs
      exact hs ▸ hfs
  · intro data
    refine Triple.lift ?_ ?_
    · intro s out hs hout
      exact ⟨hs ▸ hfs, slice_length (okOr_eq_ok.mp hout)⟩
    · intro s hs
      exact hs ▸ hfs

theorem readLayout_spec {nid : NodeId} {inode : Inode} {bs off stop : ℕ} :
    Triple (Fixed nid inode bs) (readLayout codecs nid inode off stop)
      (fun out fs => Fixed nid inode bs fs ∧ out.length = stop - off)
      (Fixed nid inode bs) := by
  refine Triple.ite (fun _ => readDecoded_spec) (fun _ => ?_)
  refine Triple.get_bind ?_
  intro fs hfs
  refine Triple.lift ?_ ?_
  · intro s out hs hout
    exact ⟨hs ▸ hfs, readFlat_length hout⟩
  · intro s hs
    exact hs ▸ hfs

/-- A read of an inode's data leaves the length of the buffer as it is. -/
theorem readInodeData_spec (nid : NodeId) (inode : Inode) (bs off : ℕ) (buf : List UInt8) :
    Triple (Fixed nid inode bs) (readInodeData codecs nid off buf)
      (fun r fs => Fixed nid inode bs fs ∧ r.2.length = buf.length)
      (Fixed nid inode bs) := by
  refine Triple.bind (R := fun found fs => Fixed nid inode bs fs ∧ found = inode) ?_ ?_
  · intro fs hfs
    rw [exec_inode, hfs.1]
    exact ⟨hfs, rfl⟩
  · intro found
    refine Triple.ite (fun _ => ?_) (fun hoff => ?_)
    · exact Triple.pure fun s hs => ⟨hs.1, rfl⟩
    · refine Triple.bind (R := fun asked fs => (Fixed nid inode bs fs ∧ found = inode) ∧
        asked = off + buf.length) ?_ ?_
      · refine Triple.lift ?_ ?_
        · intro s asked hs hasked
          exact ⟨hs, (fits_eq_ok.mp hasked).2.symm⟩
        · intro s hs
          exact hs.1
      · intro asked fs hfs
        obtain ⟨⟨hfs, rfl⟩, rfl⟩ := hfs
        refine (Triple.bind readLayout_spec ?_ : Triple (Fixed nid found bs) _ _ _) fs hfs
        intro seg
        refine Triple.pure ?_
        intro s hs
        refine ⟨hs.1, overwrite_length ?_⟩
        rw [hs.2]
        omega

/-- The verifier was shown `data` as the block at `start` and accepted it. -/
def Accepted (events : List Event) (start : ℕ) (data : List UInt8) : Prop :=
  Event.verified start data (.ok ()) ∈ events

/-- What a read at `off` of a file of `size` bytes may do: show the verifier a
whole block, or the last one of the file, and copy bytes of a block it accepted
before. -/
inductive Shepherded (verifier : Verifier) (node : NodeId) (bs size off : ℕ) :
    List Event → Prop
  | nil : Shepherded verifier node bs size off []
  | verified {events : List Event} {start : ℕ} {data : List UInt8} :
      Shepherded verifier node bs size off events → bs ∣ start → start < size →
      data.length = min bs (size - start) →
      Shepherded verifier node bs size off
        (events ++ [.verified start data (verifier node start data)])
  | surfaced {events : List Event} {block dst : ℕ} {bytes data : List UInt8} :
      Shepherded verifier node bs size off events → Accepted events block data →
      block ≤ off + dst → off + dst + bytes.length ≤ block + data.length →
      bytes = (data.drop (off + dst - block)).take bytes.length →
      Shepherded verifier node bs size off (events ++ [.surfaced block dst bytes])

/-- The caller's buffer after the copies among `events`. -/
def replay (buf : List UInt8) (events : List Event) : List UInt8 :=
  events.foldl (fun buf e =>
    match e with
    | .verified _ _ _ => buf
    | .surfaced _ dst bytes => overwrite buf dst bytes) buf

theorem replay_append (buf : List UInt8) (events : List Event) (e : Event) :
    replay buf (events ++ [e]) = replay (replay buf events) [e] := List.foldl_append

/-- What holds of a read in progress, also when it fails. -/
structure Sound (verifier : Verifier) (node : NodeId) (inode : Inode) (bs off : ℕ)
    (buf : List UInt8) (w : Window) : Prop where
  fixed : Fixed node inode bs w.fs
  replay : w.buf = replay buf w.events
  shepherded : Shepherded verifier node bs inode.size off w.events

/-- What holds of a read up to `stop` when the blocks before `blockStart` are done. -/
structure Reading (verifier : Verifier) (node : NodeId) (inode : Inode) (bs off stop : ℕ)
    (buf : List UInt8) (blockStart : ℕ) (w : Window) : Prop
    extends Sound verifier node inode bs off buf w where
  block_length : w.block.length = bs
  buf_length : w.buf.length = buf.length
  clean : ∀ start data answer, Event.verified start data answer ∈ w.events → answer = .ok ()
  served : ∀ start, bs ∣ start → off < start + bs → start < blockStart →
    ∃ data, Accepted w.events start data ∧
      ∀ i, start ≤ off + i → off + i < min stop (start + bs) → w.buf[i]? = data[off + i - start]?

section Blocks

variable {verifier : Verifier} {node : NodeId} {inode : Inode} {bs off stop : ℕ}
  {buf : List UInt8} {blockStart : ℕ}

theorem fillBlock_spec {blockLen : ℕ} (hlen : blockLen ≤ bs) :
    Triple (Reading verifier node inode bs off stop buf blockStart)
      (fillBlock codecs node blockStart blockLen)
      (fun _ => Reading verifier node inode bs off stop buf blockStart)
      (Sound verifier node inode bs off buf) := by
  refine Triple.get_bind ?_
  intro w hw
  refine Triple.bind (R := fun r u => Reading verifier node inode bs off stop buf blockStart u ∧
    r.2.length = blockLen) ?_ ?_
  · refine Triple.zoom (readInodeData_spec node inode bs _ _) ?_ ?_ ?_
    · intro u hu
      exact hu ▸ hw.fixed
    · intro u r fs hu hr
      subst hu
      refine ⟨⟨⟨hr.1, hw.replay, hw.shepherded⟩, hw.block_length, hw.buf_length, hw.clean,
        hw.served⟩, ?_⟩
      rw [hr.2, List.length_take, hw.block_length]
      omega
    · intro u fs hu hfs
      subst hu
      exact ⟨hfs, hw.replay, hw.shepherded⟩
  · intro r u hu
    refine ⟨⟨hu.1.fixed, hu.1.replay, hu.1.shepherded⟩, ?_, hu.1.buf_length, hu.1.clean,
      hu.1.served⟩
    have hle : 0 + r.2.length ≤ u.block.length := by
      rw [hu.1.block_length]
      omega
    exact (overwrite_length hle).trans hu.1.block_length

theorem exec_verifyBlock (blockLen : ℕ) (w : Window) :
    exec (verifyBlock verifier node blockStart blockLen) w =
      (verifier node blockStart (w.block.take blockLen),
        { w with events := w.events ++ [Event.verified blockStart (w.block.take blockLen)
          (verifier node blockStart (w.block.take blockLen))] }) := rfl

theorem verifyBlock_spec (hdvd : bs ∣ blockStart) (hlt : blockStart < inode.size) :
    Triple (Reading verifier node inode bs off stop buf blockStart)
      (verifyBlock verifier node blockStart (min bs (inode.size - blockStart)))
      (fun _ w => Reading verifier node inode bs off stop buf blockStart w ∧
        Accepted w.events blockStart (w.block.take (min bs (inode.size - blockStart))))
      (Sound verifier node inode bs off buf) := by
  intro w hw
  rw [exec_verifyBlock]
  obtain ⟨data, hdata⟩ : ∃ data, data = w.block.take (min bs (inode.size - blockStart)) := ⟨_, rfl⟩
  have hlen : data.length = min bs (inode.size - blockStart) := by
    rw [hdata, List.length_take, hw.block_length]
    omega
  rw [← hdata]
  have hsound : Sound verifier node inode bs off buf { w with
      events := w.events ++ [Event.verified blockStart data (verifier node blockStart data)] } := by
    refine ⟨hw.fixed, ?_, .verified hw.shepherded hdvd hlt hlen⟩
    rw [replay_append, ← hw.replay]
    rfl
  rcases hanswer : verifier node blockStart data with e | ⟨⟩
  · rw [hanswer] at hsound
    exact hsound
  · rw [hanswer] at hsound
    refine ⟨⟨hsound, hw.block_length, hw.buf_length, ?_, ?_⟩, ?_⟩
    · intro start found answer hmem
      rcases List.mem_append.mp hmem with hmem | hmem
      · exact hw.clean start found answer hmem
      · cases List.mem_singleton.mp hmem
        rfl
    · intro start hstart hoff hbefore
      obtain ⟨found, hfound, hbytes⟩ := hw.served start hstart hoff hbefore
      exact ⟨found, List.mem_append_left _ hfound, hbytes⟩
    · show Accepted _ blockStart (w.block.take (min bs (inode.size - blockStart)))
      rw [← hdata]
      exact List.mem_append_right _ List.mem_cons_self

/-- The bytes a copy takes of an accepted block, as indexes of both buffers. -/
theorem copy_getElem? {block buf : List UInt8} {src dst count i : ℕ}
    (hsrc : src + count ≤ block.length) (hdst : dst + count ≤ buf.length) (hlo : dst ≤ i)
    (hhi : i < dst + count) :
    (overwrite buf dst ((block.drop src).take count))[i]? = block[src + (i - dst)]? := by
  have hlen : ((block.drop src).take count).length = count := by
    rw [List.length_take, List.length_drop]
    omega
  obtain ⟨j, rfl⟩ : ∃ j, i = dst + j := ⟨i - dst, by omega⟩
  rw [overwrite_getElem?_of_mem (by omega) (by omega), List.getElem?_take_of_lt (by omega),
    List.getElem?_drop, Nat.add_sub_cancel_left]

theorem multiple_add_le {bs a b : ℕ} (ha : bs ∣ a) (hb : bs ∣ b) (h : a < b) : a + bs ≤ b := by
  obtain ⟨k, rfl⟩ := ha
  obtain ⟨m, rfl⟩ := hb
  rw [← Nat.mul_succ]
  exact Nat.mul_le_mul_left bs (Nat.lt_of_mul_lt_mul_left h)

theorem multiple_le {bs a b : ℕ} (ha : bs ∣ a) (hb : bs ∣ b) (h : a < b + bs) : a ≤ b := by
  by_contra hlt
  have hle := multiple_add_le hb ha (Nat.lt_of_not_le hlt)
  omega

/-- The copied bytes, and what the window has after them. -/
theorem Reading.surface {w : Window} {data bytes : List UInt8} {copyStart copyEnd : ℕ}
    (hw : Reading verifier node inode bs off stop buf blockStart w)
    (hdvd : bs ∣ blockStart) (hdata : data = w.block.take (min bs (inode.size - blockStart)))
    (haccepted : Accepted w.events blockStart data) (hstop : stop ≤ inode.size)
    (hasked : stop ≤ off + buf.length) (hstart : copyStart = max off blockStart)
    (hend : copyEnd = min stop (blockStart + bs)) (hlt : copyStart < copyEnd)
    (hbytes : bytes = (w.block.drop (copyStart - blockStart)).take (copyEnd - copyStart)) :
    Reading verifier node inode bs off stop buf (blockStart + bs)
      { w with
        buf := overwrite w.buf (copyStart - off) bytes
        events := w.events ++ [Event.surfaced blockStart (copyStart - off) bytes] } := by
  have hblock := hw.block_length
  have hbuf := hw.buf_length
  have hlen : bytes.length = copyEnd - copyStart := by
    rw [hbytes, List.length_take, List.length_drop]
    omega
  have hdataLen : data.length = min bs (inode.size - blockStart) := by
    rw [hdata, List.length_take]
    omega
  have hcopied : bytes =
      (data.drop (off + (copyStart - off) - blockStart)).take bytes.length := by
    rw [hlen, hdata, List.drop_take, List.take_take, hbytes]
    congr 1
    · omega
    · congr 1
      omega
  have hfits : copyStart - off + bytes.length ≤ w.buf.length := by omega
  refine ⟨⟨hw.fixed, ?_, ?_⟩, hblock, ?_, ?_, ?_⟩
  · rw [replay_append, ← hw.replay]
    rfl
  · exact .surfaced hw.shepherded haccepted (by omega) (by omega) hcopied
  · exact (overwrite_length hfits).trans hbuf
  · intro start found answer hmem
    rcases List.mem_append.mp hmem with hmem | hmem
    · exact hw.clean start found answer hmem
    · cases List.mem_singleton.mp hmem
  · intro start hstartDvd hoff hbefore
    by_cases heq : start = blockStart
    · subst heq
      refine ⟨data, List.mem_append_left _ haccepted, ?_⟩
      intro i hlo hhi
      show (overwrite w.buf (copyStart - off) bytes)[i]? = _
      rw [hbytes, copy_getElem? (by omega) (by omega) (by omega) (by omega), hdata,
        List.getElem?_take_of_lt (by omega)]
      congr 1
      omega
    · have hle := multiple_le hstartDvd hdvd hbefore
      have hnext : start + bs ≤ blockStart := multiple_add_le hstartDvd hdvd (by omega)
      obtain ⟨found, hfound, hold⟩ := hw.served start hstartDvd hoff (by omega)
      refine ⟨found, List.mem_append_left _ hfound, ?_⟩
      intro i hlo hhi
      show (overwrite w.buf (copyStart - off) bytes)[i]? = _
      rw [overwrite_getElem?_of_notMem hfits (Or.inl (by omega))]
      exact hold i hlo hhi

theorem surface_spec (hdvd : bs ∣ blockStart) (hstop : stop ≤ inode.size)
    (hasked : stop ≤ off + buf.length) (hlt : blockStart < stop) :
    Triple (fun w => Reading verifier node inode bs off stop buf blockStart w ∧
        Accepted w.events blockStart (w.block.take (min bs (inode.size - blockStart))))
      (surface off stop blockStart (min bs (inode.size - blockStart)))
      (fun count w => Reading verifier node inode bs off stop buf (blockStart + bs) w ∧
        min stop blockStart - off + count = min stop (blockStart + bs) - off)
      (Sound verifier node inode bs off buf) := by
  have hcopyEnd : min stop (blockStart + min bs (inode.size - blockStart)) =
      min stop (blockStart + bs) := by omega
  unfold surface
  dsimp only
  rw [hcopyEnd]
  refine Triple.ite (fun hcopy => ?_) (fun hcopy => ?_)
  · refine Triple.get_bind ?_
    intro w hw u hu
    subst hu
    exact ⟨hw.1.surface hdvd rfl hw.2 hstop hasked rfl rfl hcopy rfl, by omega⟩
  · refine Triple.pure ?_
    intro w hw
    refine ⟨⟨hw.1.toSound, hw.1.block_length, hw.1.buf_length, hw.1.clean, ?_⟩, by omega⟩
    intro start hstartDvd hoff hbefore
    by_cases heq : start = blockStart
    · subst heq
      refine ⟨_, hw.2, ?_⟩
      intro i hlo hhi
      omega
    · have hle := multiple_le hstartDvd hdvd hbefore
      exact hw.1.served start hstartDvd hoff (by omega)

/-- The block loop. -/
theorem readBlocks_spec {vol : Volume} (hvol : vol.blockSize = bs) (hdvd : bs ∣ blockStart)
    (hstop : stop ≤ inode.size) (hasked : stop ≤ off + buf.length) {produced : ℕ}
    (hproduced : produced = min stop blockStart - off) :
    Triple (Reading verifier node inode bs off stop buf blockStart)
      (readBlocks codecs verifier node vol off stop inode.size blockStart produced)
      (fun n w => n = stop - off ∧
        ∃ reached, stop ≤ reached ∧ Reading verifier node inode bs off stop buf reached w)
      (Sound verifier node inode bs off buf) := by
  induction hn : stop - blockStart using Nat.strong_induction_on generalizing blockStart produced with
  | _ n ih =>
  have hbs : 0 < bs := hvol ▸ vol.blockSize_pos
  rw [readBlocks, hvol]
  refine Triple.ite (fun hlt => ?_) (fun hge => ?_)
  · refine Triple.bind (fillBlock_spec (by omega)) ?_
    intro _
    refine Triple.bind (verifyBlock_spec hdvd (by omega)) ?_
    intro _
    refine Triple.bind (surface_spec hdvd hstop hasked hlt) ?_
    intro count
    refine Triple.bind (R := fun _ w =>
      Reading verifier node inode bs off stop buf (blockStart + bs) w ∧
        min stop blockStart - off + count = min stop (blockStart + bs) - off) ?_ ?_
    · refine Triple.lift ?_ ?_
      · intro w _ hw _
        exact hw
      · intro w hw
        exact hw.1.toSound
    · intro _ w hw
      exact ih (stop - (blockStart + bs)) (by omega) (Nat.dvd_add hdvd (Nat.dvd_refl bs))
        (by rw [hproduced]; exact hw.2) rfl w hw.1
  · refine Triple.pure ?_
    intro w hw
    exact ⟨by omega, blockStart, by omega, hw⟩

end Blocks

/-- The size of a file whose inode is cached. -/
def fileSize (fs : Erofs) (node : NodeId) : ℕ := (fs.inodes[node]?.map Inode.size).getD 0

theorem Fixed.fileSize_eq {node : NodeId} {inode : Inode} {bs : ℕ} {fs : Erofs}
    (h : Fixed node inode bs fs) : fs.fileSize node = inode.size := by
  rw [fileSize, h.1]
  rfl

/-- What a read that succeeds has done: all blocks that meet its window were
accepted, and the bytes it counts are bytes of them. -/
structure Complete (node : NodeId) (bs off : ℕ) (buf : List UInt8) (n : ℕ) (w : Window) :
    Prop where
  count : n = min (off + buf.length) (w.fs.fileSize node) - off
  buf_length : w.buf.length = buf.length
  clean : ∀ start data answer, Event.verified start data answer ∈ w.events → answer = .ok ()
  served : ∀ start, bs ∣ start → max off start < min (off + n) (start + bs) →
    ∃ data, Accepted w.events start data ∧
      ∀ i, start ≤ off + i → off + i < min (off + n) (start + bs) →
        w.buf[i]? = data[off + i - start]?

/-- What a read has done, however it ends. -/
structure Served (verifier : Verifier) (node : NodeId) (bs off : ℕ) (buf : List UInt8)
    (w : Window) : Prop where
  replay : w.buf = replay buf w.events
  shepherded : Shepherded verifier node bs (w.fs.fileSize node) off w.events

theorem Sound.served {verifier : Verifier} {node : NodeId} {inode : Inode} {bs off : ℕ}
    {buf : List UInt8} {w : Window} (h : Sound verifier node inode bs off buf w) :
    Served verifier node bs off buf w := by
  refine ⟨h.replay, ?_⟩
  rw [h.fixed.fileSize_eq]
  exact h.shepherded

/-- A read that has not begun to copy. -/
structure Fresh (fs : Erofs) (buf : List UInt8) (w : Window) : Prop where
  vol : w.fs.vol = fs.vol
  buf : w.buf = buf
  block : w.block.length = fs.vol.blockSize
  events : w.events = []

theorem Fresh.served {fs : Erofs} {buf : List UInt8} {w : Window} (h : Fresh fs buf w)
    (verifier : Verifier) (node : NodeId) (off : ℕ) :
    Served verifier node fs.vol.blockSize off buf w := by
  refine ⟨?_, ?_⟩
  · rw [h.events, h.buf]
    rfl
  · rw [h.events]
    exact .nil

theorem Fresh.reading {fs : Erofs} {buf : List UInt8} {w : Window} (h : Fresh fs buf w)
    (verifier : Verifier) {node : NodeId} {inode : Inode} (hinode : w.fs.inodes[node]? = some inode)
    (off stop : ℕ) :
    Reading verifier node inode fs.vol.blockSize off stop buf
      (off / fs.vol.blockSize * fs.vol.blockSize) w := by
  have hvol : w.fs.vol.blockSize = fs.vol.blockSize := by rw [h.vol]
  have hbs := fs.vol.blockSize_pos
  have hfirst : off / fs.vol.blockSize * fs.vol.blockSize ≤ off := Nat.div_mul_le_self _ _
  refine ⟨⟨⟨hinode, hvol⟩, ?_, ?_⟩, h.block, by rw [h.buf], ?_, ?_⟩
  · rw [h.events, h.buf]
    rfl
  · rw [h.events]
    exact .nil
  · intro start data answer hmem
    rw [h.events] at hmem
    cases hmem
  · intro start hdvd hoff hbefore
    have hle := multiple_le (Nat.dvd_mul_left _ _) hdvd
      (show off / fs.vol.blockSize * fs.vol.blockSize < start + fs.vol.blockSize by omega)
    omega

theorem parseInode_vol (nid : NodeId) (vol : Volume) :
    Preserves (fun fs => fs.vol = vol) (parseInode nid) := by
  intro fs hfs
  cases hcached : fs.inodes.contains nid with
  | true =>
    rw [exec_parseInode_cached hcached]
    exact hfs
  | false =>
    rw [exec_parseInode_new hcached]
    cases readInode fs.vol nid with
    | error e => exact hfs
    | ok inode => exact hfs

theorem exec_readAt (verifier : Verifier) (node : NodeId) (off : ℕ) (buf : List UInt8)
    (fs : Erofs) :
    exec (readAt codecs verifier node off buf) fs =
      let (count, w) := exec (readWindow codecs verifier node off) (.start fs buf)
      (count.map fun n => (n, w.buf), w.fs) := rfl

theorem readWindow_spec (verifier : Verifier) (node : NodeId) (off : ℕ) (buf : List UInt8)
    (fs : Erofs) :
    Triple (Fresh fs buf) (readWindow codecs verifier node off)
      (fun n w => Served verifier node fs.vol.blockSize off buf w ∧
        Complete node fs.vol.blockSize off buf n w)
      (Served verifier node fs.vol.blockSize off buf) := by
  refine Triple.bind (R := fun _ => Fresh fs buf) ?_ ?_
  · refine Triple.zoom (Preserves.triple (parseInode_vol node fs.vol)) ?_ ?_ ?_
    · exact fun w hw => hw.vol
    · exact fun w _ fs' hw hvol => ⟨hvol, hw.buf, hw.block, hw.events⟩
    · exact fun w fs' hw hvol =>
        Fresh.served (w := { w with fs := fs' }) ⟨hvol, hw.buf, hw.block, hw.events⟩ verifier node off
  intro _
  refine Triple.bind (R := fun inode w => Fresh fs buf w ∧ w.fs.inodes[node]? = some inode) ?_ ?_
  · intro w hw
    have hrun : exec (onVolume (inode node)) w = (okOr w.fs.inodes[node]? .notFound, w) := by
      unfold onVolume
      rw [exec_zoom, exec_inode]
    rw [hrun]
    cases hinode : w.fs.inodes[node]? with
    | none => exact hw.served verifier node off
    | some inode => exact ⟨hw, hinode⟩
  intro inode
  refine Triple.ite (fun _ => ?_) (fun _ => Triple.ite (fun hoff => ?_) (fun hoff => ?_))
  · exact Triple.throw fun w hw => hw.1.served verifier node off
  · refine Triple.pure ?_
    intro w hw
    have hsize : w.fs.fileSize node = inode.size := by
      rw [fileSize, hw.2]
      rfl
    refine ⟨hw.1.served verifier node off, ⟨?_, by rw [hw.1.buf], ?_, ?_⟩⟩
    · rw [hsize]
      omega
    · intro start data answer hmem
      rw [hw.1.events] at hmem
      cases hmem
    · intro start _ hlt
      omega
  · refine Triple.get_bind ?_
    intro w hw
    refine Triple.bind (R := fun asked u => u = w ∧ asked = off + buf.length) ?_ ?_
    · refine Triple.lift ?_ ?_
      · intro u asked hu hasked
        rw [hw.1.buf] at hasked
        exact ⟨hu, (fits_eq_ok.mp hasked).2.symm⟩
      · intro u hu
        exact hu ▸ hw.1.served verifier node off
    · intro asked u hu
      obtain ⟨rfl, rfl⟩ := hu
      have hreading := hw.1.reading verifier hw.2 off (min (off + buf.length) inode.size)
      have hfirst := Nat.div_mul_le_self off fs.vol.blockSize
      have hspec : Triple (Reading verifier node inode fs.vol.blockSize off
          (min (off + buf.length) inode.size) buf (off / fs.vol.blockSize * fs.vol.blockSize))
          (readBlocks codecs verifier node fs.vol off (min (off + buf.length) inode.size) inode.size
            (off / fs.vol.blockSize * fs.vol.blockSize) 0) _ _ :=
        readBlocks_spec rfl (Nat.dvd_mul_left _ _) (by omega) (by omega) (by omega)
      have hspec := hspec.weaken (P := Reading verifier node inode fs.vol.blockSize off
          (min (off + buf.length) inode.size) buf (off / fs.vol.blockSize * fs.vol.blockSize))
        (Q := fun n w => Served verifier node fs.vol.blockSize off buf w ∧
          Complete node fs.vol.blockSize off buf n w)
        (E := Served verifier node fs.vol.blockSize off buf) (fun _ h => h) ?_ (fun w h => h.served)
      · have hrun := hspec u hreading
        rw [hw.1.vol]
        exact hrun
      · intro n w' hdone
        obtain ⟨rfl, reached, hreached, hdone⟩ := hdone
        have hsize := hdone.fixed.fileSize_eq
        refine ⟨hdone.toSound.served, ⟨by rw [hsize], hdone.buf_length, hdone.clean, ?_⟩⟩
        intro start hdvd hlt
        obtain ⟨data, haccepted, hbytes⟩ := hdone.served start hdvd (by omega) (by omega)
        exact ⟨data, haccepted, fun i hlo hhi => hbytes i hlo (by omega)⟩

/-- The outcome of a read, and that nothing reached the caller unverified: the
buffer is what the recorded copies make of it, each copy follows the acceptance
of its block, and success means that every block of the window was accepted. -/
structure Report (verifier : Verifier) (node : NodeId) (bs off : ℕ) (buf : List UInt8)
    (r : Outcome ℕ) (w : Window) : Prop extends Served verifier node bs off buf w where
  complete : ∀ n, r = .ok n → Complete node bs off buf n w

theorem readWindow_report (codecs : Codecs ρ) (verifier : Verifier) (node : NodeId) (off : ℕ)
    (buf : List UInt8) (fs : Erofs) :
    Report verifier node fs.vol.blockSize off buf
      (exec (readWindow codecs verifier node off) (.start fs buf)).1
      (exec (readWindow codecs verifier node off) (.start fs buf)).2 := by
  have hfresh : Fresh fs buf (.start fs buf) :=
    ⟨rfl, rfl, by simp [Window.start], rfl⟩
  have hspec : Triple (Fresh fs buf) (readWindow codecs verifier node off) _ _ :=
    readWindow_spec verifier node off buf fs
  rcases hrun : exec (readWindow codecs verifier node off) (.start fs buf) with ⟨e | n, w⟩
  · exact ⟨hspec.of_error hfresh hrun, fun n hn => (nomatch hn)⟩
  · obtain ⟨hserved, hcomplete⟩ := hspec.of_ok hfresh hrun
    refine ⟨hserved, ?_⟩
    intro m hm
    cases hm
    exact hcomplete

end Lamfold.Erofs
