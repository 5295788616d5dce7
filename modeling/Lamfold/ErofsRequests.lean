import Lamfold.Erofs
import Lamfold.Requests

/-!
What the EROFS frontend asks of its source. Index and directory reads are checked against
the cap, a pcluster has at most 2047 blocks of at most 64 KiB, and a verified read asks
for one block at a time.
-/
namespace Lamfold.Erofs

open Effects Bytes Utf8

/-- A block count has 11 bits. -/
def Head.Short (h : Head) : Prop := h.cblkcnt ≤ 0x07FF

/-- The full index gives each head one block. -/
theorem fullEntries_short {src : Source} {idx0 lcsize i count : ℕ} {heads out : List Head}
    (hheads : ∀ h ∈ heads, h.Short) (hout : fullEntries src idx0 lcsize i count heads = .ok out) :
    ∀ h ∈ out, h.Short := by
  induction count generalizing i heads with
  | zero =>
    obtain rfl := Except.ok.inj hout
    exact hheads
  | succ count ih =>
    obtain ⟨offset, -, hout⟩ := bind_eq_ok.mp hout
    obtain ⟨offset, -, hout⟩ := bind_eq_ok.mp hout
    obtain ⟨e, -, hout⟩ := bind_eq_ok.mp hout
    dsimp only at hout
    split at hout
    · exact ih hheads hout
    · obtain ⟨-, hout⟩ := ite_error_eq_ok.mp hout
      obtain ⟨start, -, hout⟩ := bind_eq_ok.mp hout
      refine ih ?_ hout
      intro h hmem
      rcases List.mem_append.mp hmem with hmem | hmem
      · exact hheads h hmem
      · rw [List.mem_singleton.mp hmem]
        exact Nat.le_of_ble_eq_true rfl

/-- A block count of the compact index is masked to 11 bits. -/
theorem resolveEntry_short {lcsize i : ℕ} {big : Bool} {st st' : Resolving} {e : RawEntry}
    (hst : ∀ h ∈ st.heads, h.Short) (hout : resolveEntry lcsize big st e i = .ok st') :
    ∀ h ∈ st'.heads, h.Short := by
  have hopen : ∀ start blkaddr, ∀ h ∈ st.heads ++ [⟨start, e.ty, blkaddr, 1⟩], h.Short := by
    intro start blkaddr h hmem
    rcases List.mem_append.mp hmem with hmem | hmem
    · exact hst h hmem
    · rw [List.mem_singleton.mp hmem]
      exact Nat.le_of_ble_eq_true rfl
  unfold resolveEntry at hout
  split_ifs at hout
  · cases hcur : st.curHead with
    | none =>
      rw [hcur] at hout
      obtain rfl := Except.ok.inj hout
      exact hst
    | some k =>
      rw [hcur] at hout
      obtain ⟨head, -, hout⟩ := bind_eq_ok.mp hout
      obtain ⟨-, hout⟩ := ite_error_eq_ok.mp hout
      obtain rfl := Except.ok.inj hout
      intro h hmem
      rcases List.mem_or_eq_of_mem_set hmem with hmem | rfl
      · exact hst h hmem
      · exact Nat.and_le_right
  · obtain rfl := Except.ok.inj hout
    exact hst
  · obtain ⟨start, -, hout⟩ := bind_eq_ok.mp hout
    obtain rfl := Except.ok.inj hout
    exact hopen start 0
  · obtain ⟨start, -, hout⟩ := bind_eq_ok.mp hout
    obtain ⟨blkaddr, -, hout⟩ := bind_eq_ok.mp hout
    obtain rfl := Except.ok.inj hout
    exact hopen start blkaddr

theorem placeBig_short {blk : ℕ} {heads out : List Head} (hheads : ∀ h ∈ heads, h.Short)
    (hout : placeBig blk heads = .ok out) : ∀ h ∈ out, h.Short := by
  fun_induction placeBig blk heads generalizing out with
  | case1 blk =>
    obtain rfl := Except.ok.inj hout
    exact hheads
  | case2 blk head =>
    obtain rfl := Except.ok.inj hout
    intro h hmem
    rw [List.mem_singleton.mp hmem]
    exact hheads head List.mem_cons_self
  | case3 blk head next rest ih =>
    obtain ⟨blk', -, hout⟩ := bind_eq_ok.mp hout
    obtain ⟨placed, hplaced, hout⟩ := bind_eq_ok.mp hout
    obtain rfl := Except.ok.inj hout
    intro h hmem
    rcases List.mem_cons.mp hmem with rfl | hmem
    · exact hheads head List.mem_cons_self
    · exact ih blk' (fun h hmem => hheads h (List.mem_cons_of_mem _ hmem)) hplaced h hmem

theorem resolveCompactHeads_short {raw : List RawEntry} {lcsize advise : ℕ} {heads : List Head}
    (hout : resolveCompactHeads raw lcsize advise = .ok heads) : ∀ h ∈ heads, h.Short := by
  obtain ⟨st, hst, hout⟩ := bind_eq_ok.mp hout
  have hshort : ∀ h ∈ st.heads, h.Short :=
    foldlM_keeps (P := fun st : Resolving => ∀ h ∈ st.heads, h.Short)
      (fun _ _ _ hmid h => resolveEntry_short hmid h) (fun _ h => absurd h List.not_mem_nil) hst
  split_ifs at hout
  · exact placeBig_short hshort hout
  · obtain rfl := Except.ok.inj hout
    exact hshort

/-- Whatever the index, the heads are short. -/
theorem readHeads_short {vol : Volume} {inode : Inode} {hdr : MapHeader} {heads : List Head}
    (hout : readHeads vol inode = .ok (hdr, heads)) : ∀ h ∈ heads, h.Short := by
  obtain ⟨mh, -, hout⟩ := bind_eq_ok.mp hout
  obtain ⟨_, -, hout⟩ := bind_eq_ok.mp hout
  obtain ⟨hdr', -, hout⟩ := bind_eq_ok.mp hout
  obtain ⟨heads', hbuild, hout⟩ := bind_eq_ok.mp hout
  obtain ⟨rfl, rfl⟩ := Prod.mk.inj (Except.ok.inj hout)
  unfold buildHeads at hbuild
  dsimp only at hbuild
  split_ifs at hbuild
  all_goals first
    | exact absurd hbuild (fail_ne_ok _ _)
    | skip
  · obtain ⟨idx0, -, hbuild⟩ := bind_eq_ok.mp hbuild
    exact fullEntries_short (fun _ h => absurd h List.not_mem_nil) hbuild
  · obtain ⟨ebase, -, hbuild⟩ := bind_eq_ok.mp hbuild
    unfold buildHeadsCompact at hbuild
    obtain ⟨idxLen, -, hbuild⟩ := bind_eq_ok.mp hbuild
    obtain ⟨cap, -, hbuild⟩ := bind_eq_ok.mp hbuild
    obtain ⟨buf, -, hbuild⟩ := bind_eq_ok.mp hbuild
    obtain ⟨raw, -, hbuild⟩ := bind_eq_ok.mp hbuild
    exact resolveCompactHeads_short hbuild

section Asked

variable {limit : ℕ} (vol : Volume)

theorem asks_readInode (nid : NodeId) :
    Asks maxBootFileBytes (readInode vol nid) (readInode vol nid) := by
  refine .bind (.of _) fun off _ => .bind ?_ fun hdr _ => ?_
  · refine .bind (asks_source vol.src off (by decide)) fun compact _ => .bind (.of _) fun format _ => ?_
    refine .ite (fun _ => .bind (.of _) fun off _ => ?_) fun _ => .pure _
    exact .bind (asks_source vol.src off (by decide)) fun extended _ => .pure _
  · refine .bind (.of _) fun format _ => .bind (.of _) fun xattrIcount _ => ?_
    refine .bind (.of _) fun mode _ => ?_
    refine .ite (fun _ => .bind (.of _) fun size _ => ?_) fun _ => .bind (.of _) fun size _ => ?_
    · exact .bind (.of _) fun rawBlkaddr _ => .bind (.of _) fun inlineOff _ => .pure _
    · exact .bind (.of _) fun rawBlkaddr _ => .bind (.of _) fun inlineOff _ => .pure _

/-- The pieces of an inline file are no longer than the window. -/
theorem asks_readInline (inode : Inode) (fullBytes base stop p : ℕ) (hlen : stop - p ≤ limit) :
    Asks limit (readInline vol inode fullBytes base stop p)
      (readInline vol inode fullBytes base stop p) := by
  fun_induction readInline vol inode fullBytes base stop p with
  | case1 p hp hfull segEnd ih =>
    rw [readInline, if_pos hp, if_pos hfull]
    refine .bind (.of _) fun disk _ => .bind (asks_source vol.src disk (by omega)) fun seg _ => ?_
    exact .bind (ih (by omega)) fun rest _ => .pure _
  | case2 p hp hfull =>
    rw [readInline, if_pos hp, if_neg hfull]
    exact .bind (.of _) fun disk _ => asks_source vol.src disk hlen
  | case3 p hp =>
    rw [readInline, if_neg hp]
    exact .pure _

theorem asks_readChunk (table idx within : ℕ) {n : ℕ} (hword : 4 ≤ limit) (hn : n ≤ limit) :
    Asks limit (readChunk vol table idx within n) (readChunk vol table idx within n) := by
  refine .bind (.of _) fun entry _ => .bind (asks_source vol.src entry hword) fun e _ => ?_
  exact .ite (fun _ => .pure _) fun _ => .bind (.of _) fun disk _ => asks_source vol.src disk hn

/-- A chunked file asks for a word of its index and a piece of the window at a time. -/
theorem asks_readChunks (chunkbits table stop p : ℕ) (hword : 4 ≤ limit)
    (hlen : stop - p ≤ limit) :
    Asks limit (readChunks vol chunkbits table stop p)
      (readChunks vol chunkbits table stop p) := by
  fun_induction readChunks vol chunkbits table stop p with
  | case1 p hp idx segEnd ih =>
    have hlt : p < (p / 2 ^ chunkbits + 1) * 2 ^ chunkbits := by
      rw [Nat.mul_comm]
      exact Nat.lt_mul_div_succ p (Nat.two_pow_pos chunkbits)
    rw [readChunks, if_pos hp]
    refine .bind (.of _) fun _ _ => ?_
    refine .bind (asks_readChunk vol table _ _ hword (by omega)) fun seg _ => ?_
    exact .bind (ih (by omega)) fun rest _ => .pure _
  | case2 p hp =>
    rw [readChunks, if_neg hp]
    exact .pure _

theorem asks_readFlat (inode : Inode) {off stop : ℕ} (hword : 4 ≤ limit)
    (hlen : stop - off ≤ limit) :
    Asks limit (readFlat vol inode off stop) (readFlat vol inode off stop) := by
  refine .ite (fun _ => ?_) fun _ => .ite (fun _ => ?_) fun _ => .ite (fun _ => ?_) fun _ => .of _
  · refine .bind (.of _) fun base _ => .bind (.of _) fun disk _ => ?_
    exact asks_source vol.src disk hlen
  · exact .bind (.of _) fun base _ => asks_readInline vol inode _ base stop off hlen
  · refine .ite (fun _ => .of _) fun _ => .ite (fun _ => .of _) fun _ => ?_
    refine .ite (fun _ => .of _) fun _ => .ite (fun _ => .of _) fun _ => ?_
    exact .bind (.of _) fun aligned _ => asks_readChunks vol _ _ stop off hword hlen

theorem asks_fullEntries (src : Source) (idx0 lcsize i count : ℕ) (heads : List Head) :
    Asks maxBootFileBytes (fullEntries src idx0 lcsize i count heads)
      (fullEntries src idx0 lcsize i count heads) := by
  induction count generalizing i heads with
  | zero => exact .pure heads
  | succ count ih =>
    refine .bind (.of _) fun rel _ => .bind (.of _) fun offset _ => ?_
    refine .bind (asks_source src offset (by decide)) fun e _ => ?_
    refine .ite (fun _ => ih _ _) fun _ => .ite (fun _ => .of _) fun _ => ?_
    exact .bind (.of _) fun start _ => ih _ _

/-- The compact index is checked against the cap before it is asked for. -/
theorem asks_buildHeadsCompact (src : Source) (ebase lcsize nLc advise : ℕ) :
    Asks maxBootFileBytes (buildHeadsCompact src ebase lcsize nLc advise)
      (buildHeadsCompact src ebase lcsize nLc advise) := by
  refine .bind (.of _) fun idxLen _ => .bind (.of _) fun cap hcap => ?_
  obtain ⟨hle, rfl⟩ := checkedFullReadLen_eq_ok.mp hcap
  refine .bind (asks_source src ebase hle) fun buf _ => ?_
  exact .bind (.of _) fun raw _ => .of _

theorem asks_readHeads (inode : Inode) :
    Asks maxBootFileBytes (readHeads vol inode) (readHeads vol inode) := by
  refine .bind (.of _) fun mh _ => .bind (.of _) fun _ _ => ?_
  refine .bind ?_ fun hdr _ => .bind ?_ fun heads _ => .pure _
  · exact .bind (asks_source vol.src mh (by decide)) fun hdr _ => .pure _
  · refine .ite (fun _ => .of _) fun _ => .ite (fun _ => .of _) fun _ => ?_
    refine .ite (fun _ => ?_) fun _ => .ite (fun _ => ?_) fun _ => .of _
    · exact .bind (.of _) fun idx0 _ => asks_fullEntries vol.src idx0 _ 0 _ []
    · refine .ite (fun _ => .of _) fun _ => .ite (fun _ => .of _) fun _ => ?_
      exact .bind (.of _) fun ebase _ => asks_buildHeadsCompact vol.src ebase _ _ _

/-- A short pcluster is no longer than the cap. -/
theorem span_le {cblkcnt : ℕ} (h : cblkcnt ≤ 0x07FF) :
    cblkcnt * vol.blockSize ≤ maxBootFileBytes := by
  have hsize : vol.blockSize ≤ 2 ^ 16 := Nat.pow_le_pow_right (by decide) vol.blkszbits_range.2
  exact (Nat.mul_le_mul h hsize).trans (by decide)

variable {ρ : Type} (codecs : Codecs ρ)

theorem asks_decodeOwn (hdr : MapHeader) {h : Head} (hshort : h.Short) (outlen : ℕ)
    (out : List UInt8) :
    Asks maxBootFileBytes (decodeOwn codecs vol hdr h outlen out)
      (decodeOwn codecs vol hdr h outlen out) := by
  refine .bind (.bind (.of _) fun phys _ => .bind (.of _) fun want hwant => ?_) fun span _ => .of _
  obtain ⟨-, rfl⟩ := fits_eq_ok.mp hwant
  refine .ite (fun _ => .of _) fun _ => asks_source vol.src phys ?_
  exact (Nat.min_le_left _ _).trans (span_le vol hshort)

/-- A file is decoded pcluster by pcluster. -/
theorem asks_decodeHeads (hdr : MapHeader) (iSize : ℕ) (out : List UInt8) (heads : List Head)
    (hheads : ∀ h ∈ heads, h.Short) :
    Asks maxBootFileBytes (decodeHeads codecs vol hdr iSize out heads)
      (decodeHeads codecs vol hdr iSize out heads) := by
  induction heads generalizing out with
  | nil => exact .pure out
  | cons h rest ih =>
    have hrest := fun out => ih out fun h hmem => hheads h (List.mem_cons_of_mem _ hmem)
    refine .ite (fun _ => .of _) fun _ => .ite (fun _ => hrest out) fun _ => ?_
    refine .bind (asks_decodeOwn vol codecs hdr (hheads h List.mem_cons_self) _ out) fun seg _ => ?_
    exact hrest (out ++ seg)

theorem asks_decodeInode (inode : Inode) :
    Asks maxBootFileBytes (decodeInode codecs vol inode)
      (decodeInode codecs vol inode) := by
  refine .bind (asks_readHeads vol inode) fun found hfound => ?_
  obtain ⟨hdr, heads⟩ := found
  exact asks_decodeHeads vol codecs hdr inode.size [] heads (readHeads_short hfound)

variable (src : Source)

/-- The configurations are asked for two bytes at a time, and what fails is left out. -/
theorem asks_lzmaCfg (algs cur : ℕ) (rest : List ℕ) :
    Asks maxBootFileBytes (lzmaCfg src algs cur rest) (lzmaCfg src algs cur rest) := by
  induction rest generalizing cur with
  | nil => exact .pure none
  | cons alg rest ih =>
    refine .ite (fun _ => ih cur) fun _ => ?_
    refine .bind (.attempt (asks_source src cur (by decide))) fun found _ => ?_
    cases found with
    | error e => exact .pure none
    | ok sz =>
      refine .ite (fun _ => ?_) fun _ => ih _
      refine .bind (.attempt (asks_source src (cur + 2) (by decide))) fun found _ => ?_
      cases found with
      | error e => exact .pure none
      | ok pay => exact .pure _

theorem asks_parseLzmaCfg (comprCfgsOff : ℕ) :
    Asks maxBootFileBytes (parseLzmaCfg src comprCfgsOff) (parseLzmaCfg src comprCfgsOff) := by
  refine .bind (.attempt (asks_source src comprAlgsOff (by decide))) fun found _ => ?_
  cases found with
  | error e => exact .pure none
  | ok algs => exact .ite (fun _ => .pure none) fun _ => asks_lzmaCfg src _ _ _

theorem asks_probe : Asks maxBootFileBytes (probe src) (probe src) := by
  refine .ite (fun _ => .pure _) fun _ => ?_
  exact .bind (asks_source src superOffset (by decide)) fun m _ => .pure _

theorem asks_openVolume : Asks maxBootFileBytes (openVolume src) (openVolume src) := by
  refine .ite (fun _ => .of _) fun _ => .bind (asks_source src superOffset (by decide)) fun sb _ => ?_
  refine .bind (.of _) fun found _ => .ite (fun _ => .of _) fun _ => .dite (fun hbits => ?_) fun _ =>
    .of _
  refine .bind (.of _) fun incompat _ => .bind (.of _) fun _ _ => .bind (.of _) fun rootNid _ => ?_
  refine .bind (.of _) fun metaBlkaddr _ => .bind (.of _) fun metaOff _ => ?_
  exact .bind (asks_parseLzmaCfg src _) fun lzmaDictSize _ => .pure _

theorem asks_withInode (fs : Erofs) (nid : NodeId) :
    Asks maxBootFileBytes (withInode fs nid) (withInode fs nid) :=
  .ite (fun _ => .pure fs) fun _ => .bind (asks_readInode fs.vol nid) fun _ _ => .pure _

theorem asks_mount : Asks maxBootFileBytes (mount src) (mount src) :=
  .bind (asks_openVolume src) fun vol _ => asks_withInode ⟨vol, ∅, ∅⟩ vol.rootNid

theorem asks_parseInode (nid : NodeId) (fs : Erofs) :
    AsksAt maxBootFileBytes (parseInode (m := Asking) nid) (parseInode nid) fs :=
  .get_bind (.bind (.keep (asks_withInode fs nid) fs) fun _ t _ => .set _ t)

/-- A cached inode is looked at without a request. -/
theorem asks_inode {P : Request → Prop} (nid : NodeId) (fs : Erofs) :
    TracksAt P (inode nid) (inode nid) fs := .get_bind (.lift _ fs)

variable {fs : Erofs}

theorem asks_materializeCompressed (nid : NodeId) :
    AsksAt maxBootFileBytes (materializeCompressed (m := Asking) codecs nid)
      (materializeCompressed codecs nid) fs := by
  refine .get_bind <| .ite (fun _ => .pure _ fs) fun _ => ?_
  refine .bind (asks_inode nid fs) fun inode t _ => ?_
  exact .bind (.keep (asks_decodeInode fs.vol codecs inode) t) fun out u _ => .set _ u

theorem asks_readLayout (nid : NodeId) (inode : Inode) {off stop : ℕ}
    (hlen : stop - off ≤ maxBootFileBytes) :
    AsksAt maxBootFileBytes (readLayout (m := Asking) codecs nid inode off stop)
      (readLayout codecs nid inode off stop) fs := by
  refine .ite (fun _ => ?_) fun _ => .get_bind ?_
  · refine .bind (asks_materializeCompressed codecs nid) fun _ t _ => .get_bind ?_
    exact .bind (.lift _ t) fun data u _ => .lift _ u
  · exact .keep (asks_readFlat fs.vol inode (by decide) hlen) fs

/-- Data is read into a buffer that is no longer than the cap. -/
theorem asks_readInodeData (nid : NodeId) (off : ℕ) {buf : List UInt8}
    (hbuf : buf.length ≤ maxBootFileBytes) :
    AsksAt maxBootFileBytes (readInodeData (m := Asking) codecs nid off buf)
      (readInodeData codecs nid off buf) fs := by
  refine .bind (asks_inode nid fs) fun inode t _ => .ite (fun _ => .pure _ t) fun _ => ?_
  refine .bind (.lift _ t) fun asked u hasked => ?_
  obtain ⟨-, rfl⟩ := fits_eq_ok.mp (Prod.mk.inj hasked).1
  exact .bind (asks_readLayout codecs nid inode (by omega)) fun seg v _ => .pure _ v

/-- A directory is checked against the cap before it is asked for. -/
theorem asks_readDir (dir : NodeId) :
    AsksAt maxBootFileBytes (readDir (m := Asking) codecs dir) (readDir codecs dir) fs := by
  refine .bind (asks_parseInode dir fs) fun _ t _ => .bind (asks_inode _ t) fun inode t _ => ?_
  refine .ite (fun _ => .throw _ t) fun _ => .bind (.lift _ t) fun size t hsize => ?_
  obtain ⟨hle, rfl⟩ := checkedFullReadLen_eq_ok.mp (Prod.mk.inj hsize).1
  have hbuf : (List.replicate inode.size (0 : UInt8)).length ≤ maxBootFileBytes := by
    rwa [List.length_replicate]
  refine .bind (asks_readInodeData codecs dir 0 hbuf) fun read t _ => ?_
  exact .get_bind (.lift _ t)

theorem asks_readLink (node : NodeId) :
    AsksAt maxBootFileBytes (readLink (m := Asking) codecs node) (readLink codecs node) fs := by
  refine .bind (asks_parseInode node fs) fun _ t _ => .bind (asks_inode _ t) fun inode t _ => ?_
  refine .ite (fun _ => .pure _ t) fun _ => .bind (.lift _ t) fun len t hlen => ?_
  obtain ⟨hle, rfl⟩ := checkedFullReadLen_eq_ok.mp (Prod.mk.inj hlen).1
  have hbuf : (List.replicate inode.size (0 : UInt8)).length ≤ maxBootFileBytes := by
    rwa [List.length_replicate]
  exact .bind (asks_readInodeData codecs node 0 hbuf) fun read t _ => .pure _ t

variable (verifier : Verifier) (node : NodeId)

theorem asks_fillBlock (blockStart : ℕ) {blockLen : ℕ} (hlen : blockLen ≤ maxBootFileBytes)
    (w : Window) :
    AsksAt maxBootFileBytes (fillBlock (m := Asking) codecs node blockStart blockLen)
      (fillBlock codecs node blockStart blockLen) w := by
  have hbuf : (w.block.take blockLen).length ≤ maxBootFileBytes :=
    (List.length_take_le _ _).trans hlen
  refine .get_bind ?_
  refine .bind (.zoom (asks_readInodeData codecs node blockStart hbuf)) fun read v _ => ?_
  exact .silent fun _ => rfl

theorem asks_verifyBlock {P : Request → Prop} (blockStart blockLen : ℕ) (w : Window) :
    TracksAt P (verifyBlock verifier node blockStart blockLen)
      (verifyBlock verifier node blockStart blockLen) w :=
  .get_bind (.bind (.set _ w) fun _ v _ => .lift _ v)

theorem asks_surface {P : Request → Prop} (off stop blockStart blockLen : ℕ) (w : Window) :
    TracksAt P (surface off stop blockStart blockLen) (surface off stop blockStart blockLen) w :=
  .ite (fun _ => .get_bind (.bind (.set _ w) fun _ v _ => .pure _ v)) fun _ => .pure _ w

/-- A verified read asks for one block at a time. -/
theorem asks_readBlocks (vol : Volume) (off stop size blockStart produced : ℕ) (w : Window) :
    AsksAt maxBootFileBytes
      (readBlocks (m := Asking) codecs verifier node vol off stop size blockStart produced)
      (readBlocks codecs verifier node vol off stop size blockStart produced) w := by
  have hblock : vol.blockSize ≤ maxBootFileBytes := by
    have hspan := span_le vol (show 1 ≤ 0x07FF by decide)
    omega
  fun_induction readBlocks (n := Id) codecs verifier node vol off stop size blockStart produced
    generalizing w with
  | case1 blockStart produced hlt blockLen ih =>
    rw [readBlocks, if_pos hlt]
    refine .bind (asks_fillBlock codecs node blockStart (by omega) w) fun _ v _ => ?_
    refine .bind (asks_verifyBlock verifier node _ _ v) fun _ v _ => ?_
    refine .bind (asks_surface off stop _ _ v) fun count v _ => ?_
    exact .bind (.lift _ v) fun _ v _ => ih count v
  | case2 blockStart produced hlt =>
    rw [readBlocks, if_neg hlt]
    exact .pure _ w

theorem asks_readWindow (off : ℕ) (w : Window) :
    AsksAt maxBootFileBytes (readWindow (m := Asking) codecs verifier node off)
      (readWindow codecs verifier node off) w := by
  refine .bind (.zoom (asks_parseInode node w.fs)) fun _ v _ => ?_
  refine .bind (.zoom (asks_inode node v.fs)) fun inode v _ => .ite (fun _ => .throw _ v) fun _ => ?_
  refine .ite (fun _ => .pure _ v) fun _ => .get_bind ?_
  refine .bind (.lift _ v) fun asked u _ => ?_
  exact asks_readBlocks codecs verifier node v.fs.vol off _ inode.size _ 0 u

/-- A read asks for what its window asks for. -/
theorem asks_readAt (off : ℕ) (buf : List UInt8) :
    AsksAt maxBootFileBytes (readAt (m := Asking) codecs verifier node off buf)
      (readAt codecs verifier node off buf) fs := by
  intro log
  obtain ⟨new, hrun, hnew⟩ := asks_readWindow codecs verifier node off (.start fs buf) log
  refine ⟨new, ?_, hnew⟩
  have hread : trace (readAt (m := Asking) codecs verifier node off buf) fs log =
      (fun run : (Outcome ℕ × Window) × List Request =>
        ((run.1.1.map fun n => (n, run.1.2.buf), run.1.2.fs), run.2))
        (trace (readWindow (m := Asking) codecs verifier node off) (.start fs buf) log) := rfl
  rw [hread, hrun]
  rfl

/-- The frontend, with what it asks noted. -/
def recordedMethods : FoldFrontendIn (StateM (List Request)) Erofs :=
  frontendIn (m := Asking) codecs verifier

theorem asks_methods (fs : Erofs) :
    (recordedMethods codecs verifier).Asks (fun _ => Request.Within maxBootFileBytes)
      (frontend codecs verifier) fs where
  root := rfl
  lookup dir _ := .bind (asks_readDir codecs dir) fun _ t _ => .pure _ t
  readDir dir := asks_readDir codecs dir
  metadata node := .bind (asks_parseInode node fs) fun _ t _ =>
    .bind (asks_inode node t) fun _ u _ => .pure _ u
  readAt node off buf := asks_readAt codecs verifier node off buf
  readLink node := asks_readLink codecs node

def opening : Opening Erofs Verifier := ⟨probe, mount, frontend codecs⟩

def recorded : Recorded (opening codecs) where
  probe := probe
  mount := mount
  methods := recordedMethods codecs
  probe_eq src := (asks_probe src).result
  mount_eq src := (asks_mount src).result
  methods_eq verifier fs := (asks_methods codecs verifier fs).mono fun _ _ _ => trivial

/-- Every request is capped. -/
theorem capped : (recorded codecs).Capped src := by
  refine .intro (P := fun _ => True) (asks_probe src).within (asks_mount src).within
    (fun _ => trivial) (fun verifier => ?_) fun verifier fs _ => ?_
  · exact ⟨fun _ _ _ _ => trivial, fun _ _ _ => trivial, fun _ _ _ => trivial,
      fun _ _ _ _ _ => trivial, fun _ _ _ => trivial⟩
  · exact (asks_methods codecs verifier fs).mono fun _ _ hr => hr.trans (Nat.le_max_left _ _)

end Asked

end Lamfold.Erofs
