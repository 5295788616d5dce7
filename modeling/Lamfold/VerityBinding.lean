import Lamfold.VerityBlocks

/-!
The fs-verity measurement binds the file: equal measurements of two inputs mean
equal inputs, or a collision among the strings hashed for the two. The
descriptor pins sizes, salt and root; the root then pins the data level by level.
-/
namespace Lamfold.Verity

open Effects Bytes HashTree

/-- The strings hashed by the level loop. -/
def treeStrings (sha256 : Sha256) (data : List UInt8) (bs : ℕ) (saltPrefix : List UInt8) :
    List (List UInt8) :=
  if data = [] then [] else (treeScheme saltPrefix bs).hashed sha256 (maxRounds data) data

/-- The strings hashed for a measurement: the descriptor and the tree's blocks. -/
def hashedStrings (sha256 : Sha256) (data : List UInt8) (blockLog : UInt8) (salt : List UInt8) :
    List (List UInt8) :=
  match merkleRoot sha256 data (2 ^ blockLog.toNat) (paddedSalt salt) with
  | .ok root => descriptor data blockLog root salt ::
      treeStrings sha256 data (2 ^ blockLog.toNat) (paddedSalt salt)
  | .error _ => []

theorem fsverityDigestSha256_eq_ok {sha256 : Sha256} {data salt : List UInt8}
    {blockLog : UInt8} {d : Sha256Digest}
    (h : fsverityDigestSha256 sha256 data blockLog salt = .ok d) :
    ∃ root, merkleRoot sha256 data (2 ^ blockLog.toNat) (paddedSalt salt) = .ok root ∧
      sha256 (descriptor data blockLog root salt) = d := by
  obtain ⟨bs, hbs, h⟩ := bind_eq_ok.mp h
  obtain ⟨-, rfl⟩ := shiftOne_eq_ok.mp hbs
  obtain ⟨root, hroot, h⟩ := bind_eq_ok.mp h
  exact ⟨root, hroot, Except.ok.inj h⟩

theorem ofNat_inj_of_lt {a b : ℕ} (ha : a < 256) (hb : b < 256)
    (h : UInt8.ofNat a = UInt8.ofNat b) : a = b := by
  have h' := congrArg UInt8.toNat h
  simp only [UInt8.toNat_ofNat'] at h'
  omega

theorem take_pad_inj {salt salt' : List UInt8} {n : ℕ} (hlen : salt.length = salt'.length)
    (hn : salt.length ≤ n)
    (h : salt.take (min salt.length n) ++ List.replicate (n - min salt.length n) (0 : UInt8) =
      salt'.take (min salt'.length n) ++ List.replicate (n - min salt'.length n) 0) :
    salt = salt' := by
  have hmin : min salt.length n = salt.length := Nat.min_eq_left hn
  rw [← hlen, hmin, List.take_of_length_le (le_refl _),
    List.take_of_length_le (by omega)] at h
  exact (List.append_inj h hlen).1

/-- The descriptor's fields stand at fixed offsets, so it determines them all. -/
theorem descriptor_inj {data data' : Slice} {blockLog blockLog' : UInt8}
    {root root' : Sha256Digest} {salt salt' : List UInt8}
    (hs : salt.length ≤ 32) (hs' : salt'.length ≤ 32)
    (h : descriptor data.val blockLog root salt = descriptor data'.val blockLog' root' salt') :
    blockLog = blockLog' ∧ data.val.length = data'.val.length ∧ root = root' ∧ salt = salt' := by
  simp only [descriptor] at h
  obtain ⟨h, -⟩ := List.append_inj h (by
    simp only [List.length_append, leBytes_length, List.length_replicate, List.length_take,
      root.property, root'.property, List.length_cons, List.length_nil]
    omega)
  obtain ⟨h, hsalt⟩ := List.append_inj h (by
    simp only [List.length_append, leBytes_length, List.length_replicate,
      root.property, root'.property, List.length_cons, List.length_nil])
  obtain ⟨h, -⟩ := List.append_inj h (by
    simp only [List.length_append, leBytes_length, List.length_replicate,
      root.property, root'.property, List.length_cons, List.length_nil])
  obtain ⟨h, hroot⟩ := List.append_inj h (by
    simp only [List.length_append, leBytes_length, List.length_replicate,
      List.length_cons, List.length_nil])
  obtain ⟨h, hsize⟩ := List.append_inj h (by
    simp only [List.length_append, List.length_replicate, List.length_cons, List.length_nil])
  obtain ⟨h, -⟩ := List.append_inj h (by
    simp only [List.length_cons, List.length_nil])
  simp only [List.cons.injEq, true_and, and_true] at h
  have hsaltLen : salt.length = salt'.length := ofNat_inj_of_lt (by omega) (by omega) h.2
  have hlt : data.val.length < 256 ^ 8 := Nat.lt_trans data.property (by decide)
  have hlt' : data'.val.length < 256 ^ 8 := Nat.lt_trans data'.property (by decide)
  exact ⟨h.1, leBytes_inj hlt hlt' hsize, Subtype.ext hroot,
    take_pad_inj hsaltLen hs hsalt⟩

/-- Two files of one size with the same root are equal or collide in the tree. -/
theorem merkleRoot_binds {sha256 : Sha256} {data data' : Slice} {saltPrefix : List UInt8} {bs : ℕ}
    {root : Sha256Digest} (hbs : 64 ≤ bs) (hlen : data.val.length = data'.val.length)
    (h : merkleRoot sha256 data.val bs saltPrefix = .ok root)
    (h' : merkleRoot sha256 data'.val bs saltPrefix = .ok root) :
    data = data' ∨ Collision sha256 (treeStrings sha256 data.val bs saltPrefix)
      (treeStrings sha256 data'.val bs saltPrefix) := by
  by_cases hdata : data.val = []
  · have hdata' : data'.val = [] := by
      rw [hdata] at hlen
      exact List.length_eq_zero_iff.mp hlen.symm
    exact Or.inl (Subtype.ext (hdata.trans hdata'.symm))
  · have hpos : 0 < data.val.length := List.length_pos_iff.mpr hdata
    have hdata' : data'.val ≠ [] := List.length_pos_iff.mp (hlen ▸ hpos)
    have hroot : ∀ {file : Slice}, file.val ≠ [] →
        merkleRoot sha256 file.val bs saltPrefix = .ok root →
        (treeScheme saltPrefix bs).root sha256 (maxRounds file.val) file.val = some root := by
      intro file hfile hr
      rw [merkleRoot, if_neg hfile, merkleLoop_eq_root sha256 saltPrefix hbs _ _
        (List.length_pos_iff.mpr hfile) file.property] at hr
      split at hr
      · rename_i d hd
        rw [hd, Except.ok.inj hr]
      · cases hr
    simp only [treeStrings, if_neg hdata, if_neg hdata']
    have hbound := Scheme.root_binds (treeScheme_faithful saltPrefix (by omega)) hlen
      (hroot hdata h) (hroot hdata' h')
    exact hbound.imp_left Subtype.ext

/-- Equal measurements come from identical inputs or show a SHA-256 collision
among the strings hashed for the two. -/
theorem measurement_binds (sha256 : Sha256) (data data' : Slice) (blockLog blockLog' : UInt8)
    (salt salt' : List UInt8)
    (hlog : 6 ≤ blockLog.toNat ∧ blockLog.toNat < 64)
    (hlog' : 6 ≤ blockLog'.toNat ∧ blockLog'.toNat < 64)
    (hsalt : salt.length ≤ 32) (hsalt' : salt'.length ≤ 32)
    (h : fsverityDigestSha256 sha256 data.val blockLog salt =
      fsverityDigestSha256 sha256 data'.val blockLog' salt') :
    (data = data' ∧ blockLog = blockLog' ∧ salt = salt') ∨
      Collision sha256 (hashedStrings sha256 data.val blockLog salt)
        (hashedStrings sha256 data'.val blockLog' salt') := by
  obtain ⟨d, hd⟩ := fsverityDigestSha256_total sha256 data salt hlog.1 hlog.2
  obtain ⟨root, hroot, hdesc⟩ := fsverityDigestSha256_eq_ok hd
  obtain ⟨root', hroot', hdesc'⟩ := fsverityDigestSha256_eq_ok (h.symm.trans hd)
  simp only [hashedStrings, hroot, hroot']
  by_cases heq : descriptor data.val blockLog root salt =
      descriptor data'.val blockLog' root' salt'
  · obtain ⟨rfl, hlen, rfl, rfl⟩ := descriptor_inj hsalt hsalt' heq
    rcases merkleRoot_binds (blockSize_ge hlog.1) hlen hroot hroot' with hdata | hcoll
    · exact Or.inl ⟨hdata, rfl, rfl⟩
    · exact Or.inr (hcoll.mono (fun _ => List.mem_cons_of_mem _)
        (fun _ => List.mem_cons_of_mem _))
  · exact Or.inr ⟨_, List.mem_cons_self, _, List.mem_cons_self, heq, hdesc.trans hdesc'.symm⟩

/-- A file of one letter over and over, one byte longer than a block of 64. -/
def letters (c : UInt8) : Slice := ⟨List.replicate 65 c, by rw [List.length_replicate]; decide⟩

/-- Under a hash that is constant two files of two blocks have one measurement, and strings
that were hashed for them collide. -/
theorem measurement_binds_letters :
    fsverityDigestSha256 (fun _ => zeroDigest) (letters 0x61).val 6 [] =
        fsverityDigestSha256 (fun _ => zeroDigest) (letters 0x62).val 6 [] ∧
      Collision (fun _ => zeroDigest) (hashedStrings (fun _ => zeroDigest) (letters 0x61).val 6 [])
        (hashedStrings (fun _ => zeroDigest) (letters 0x62).val 6 []) := by
  have hlen : (letters 0x61).val.length = (letters 0x62).val.length := by
    unfold letters
    rw [List.length_replicate, List.length_replicate]
  have hleaves : ∀ c, ((treeScheme (paddedSalt []) (2 ^ (6 : UInt8).toNat)).blocks
      (letters c).val).map (fun _ => zeroDigest) = [zeroDigest, zeroDigest] := by
    intro c
    have hcount : divCeil (letters c).val.length 64 = 2 := by
      unfold letters
      rw [List.length_replicate]
      decide
    simp [treeScheme, hcount, List.range_succ]
  have hsame := measurement_congr (fun _ => zeroDigest) [] (by decide) hlen
    ((hleaves 0x61).trans (hleaves 0x62).symm)
  refine ⟨hsame, ?_⟩
  have hdiffer : letters 0x61 ≠ letters 0x62 := by
    intro h
    have hfirst := congrArg (fun file : Slice => file.val.head?) h
    cases hfirst
  have hbinds := measurement_binds (fun _ => zeroDigest) (letters 0x61) (letters 0x62) 6 6 [] []
    (by decide) (by decide) (Nat.zero_le _) (Nat.zero_le _) hsame
  exact hbinds.resolve_left fun h => hdiffer h.1

end Lamfold.Verity
