import Lamfold.CramfsPages

/-!
Where the bytes of a cramfs file stand. The pages are appended one after another,
so a page stays in its place only when every page before it was full: after a
short page the rest of the file moves up.
-/
namespace Lamfold.Cramfs

open Effects Bytes

variable {ρ : Type} {codecs : Codecs ρ} {src : Source}

/-- The stored pages of a file, in order. -/
def filePages (src : Source) (inode : CrInode) : Outcome (List (Option (List UInt8))) :=
  if inode.size = 0 then .ok []
  else do
    let nblocks := divCeil inode.size page
    let idx ← src.readAt inode.dataOff (nblocks * 4)
    storedPages src idx nblocks 0 (inode.dataOff + nblocks * 4)

/-- What page `i` itself inflates to when it is asked for its share of `size` bytes. -/
def pageData (codecs : Codecs ρ) (pages : List (Option (List UInt8))) (size i : ℕ) :
    Option (List UInt8) :=
  pages[i]? >>= fun stored => inflatePage codecs stored (min page (size - i * page))

/-- Every byte is the one its own page has at its place. -/
def InPlace (codecs : Codecs ρ) (pages : List (Option (List UInt8))) (size : ℕ)
    (out : List UInt8) : Prop :=
  ∀ o b, out[o]? = some b →
    ∃ data, pageData codecs pages size (o / page) = some data ∧ data[o % page]? = some b

/-- Every page fills its share of the `missing` bytes, up to a short page after
which the pages give nothing. -/
inductive FillsInOrder (codecs : Codecs ρ) : List (Option (List UInt8)) → ℕ → Prop
  | nil {missing : ℕ} : FillsInOrder codecs [] missing
  | full {stored : Option (List UInt8)} {rest : List (Option (List UInt8))} {missing : ℕ}
      {data : List UInt8} (hdata : inflatePage codecs stored (min page missing) = some data)
      (hfull : data.length = min page missing)
      (hrest : FillsInOrder codecs rest (missing - data.length)) :
      FillsInOrder codecs (stored :: rest) missing
  | short {stored : Option (List UInt8)} {rest : List (Option (List UInt8))} {missing : ℕ}
      {data : List UInt8} (hdata : inflatePage codecs stored (min page missing) = some data)
      (hshort : data.length < min page missing)
      (hrest : ∀ later ∈ rest,
        inflatePage codecs later (min page (missing - data.length)) = some []) :
      FillsInOrder codecs (stored :: rest) missing

theorem inflatePages_eq_nil {pages : List (Option (List UInt8))} {missing : ℕ} :
    inflatePages codecs pages missing = some [] ↔
      ∀ stored ∈ pages, inflatePage codecs stored (min page missing) = some [] := by
  induction pages with
  | nil => simp [inflatePages]
  | cons stored rest ih =>
    rw [inflatePages_cons, List.forall_mem_cons, ← ih]
    constructor
    · rintro ⟨data, tail, hdata, htail, hnil⟩
      obtain ⟨rfl, rfl⟩ := List.nil_eq_append_iff.mp hnil
      exact ⟨hdata, htail⟩
    · rintro ⟨hdata, htail⟩
      exact ⟨[], [], hdata, htail, rfl⟩

theorem pageData_zero (codecs : Codecs ρ) (stored : Option (List UInt8))
    (rest : List (Option (List UInt8))) (size : ℕ) :
    pageData codecs (stored :: rest) size 0 = inflatePage codecs stored (min page size) := by
  simp [pageData]

theorem pageData_succ (codecs : Codecs ρ) (stored : Option (List UInt8))
    (rest : List (Option (List UInt8))) (size i : ℕ) :
    pageData codecs (stored :: rest) size (i + 1) = pageData codecs rest (size - page) i := by
  have hsub : size - (i + 1) * page = size - page - i * page := by
    rw [Nat.succ_mul, Nat.add_comm, Nat.sub_add_eq]
  simp only [pageData, List.getElem?_cons_succ, hsub]

/-- The bytes after a full first page are those of the pages after it. -/
theorem inPlace_cons_full {stored : Option (List UInt8)} {rest : List (Option (List UInt8))}
    {size : ℕ} {data tail : List UInt8}
    (hdata : inflatePage codecs stored (min page size) = some data) (hfull : data.length = page) :
    InPlace codecs (stored :: rest) size (data ++ tail) ↔
      InPlace codecs rest (size - page) tail := by
  have hpage : 0 < page := by decide
  constructor
  · intro h o b hb
    have hin : (data ++ tail)[o + page]? = some b := by
      rw [List.getElem?_append_right (by omega), hfull, Nat.add_sub_cancel]
      exact hb
    have hplace := h (o + page) b hin
    rwa [Nat.add_div_right o hpage, Nat.add_mod_right, pageData_succ] at hplace
  · intro h o b hb
    rcases Nat.lt_or_ge o page with ho | ho
    · rw [List.getElem?_append_left (by omega)] at hb
      rw [Nat.div_eq_of_lt ho, Nat.mod_eq_of_lt ho, pageData_zero]
      exact ⟨data, hdata, hb⟩
    · obtain ⟨k, rfl⟩ := Nat.exists_eq_add_of_le' ho
      rw [List.getElem?_append_right (by omega), hfull, Nat.add_sub_cancel] at hb
      rw [Nat.add_div_right k hpage, Nat.add_mod_right, pageData_succ]
      exact h k b hb

theorem inPlace_first {stored : Option (List UInt8)} {rest : List (Option (List UInt8))}
    {size : ℕ} {data : List UInt8}
    (hdata : inflatePage codecs stored (min page size) = some data) :
    InPlace codecs (stored :: rest) size data := by
  intro o b hb
  have ho : o < data.length := (List.getElem?_eq_some_iff.mp hb).1
  have hle := inflatePage_le hdata
  have hlt : o < page := by omega
  rw [Nat.div_eq_of_lt hlt, Nat.mod_eq_of_lt hlt, pageData_zero]
  exact ⟨data, hdata, hb⟩

theorem inPlace_short {stored : Option (List UInt8)} {rest : List (Option (List UInt8))}
    {size : ℕ} {data tail : List UInt8}
    (hdata : inflatePage codecs stored (min page size) = some data)
    (hshort : data.length < page) (h : InPlace codecs (stored :: rest) size (data ++ tail)) :
    tail = [] := by
  cases tail with
  | nil => rfl
  | cons b tail =>
    have hb : (data ++ b :: tail)[data.length]? = some b := by simp
    obtain ⟨own, hown, hat⟩ := h _ _ hb
    rw [Nat.div_eq_of_lt hshort, pageData_zero, hdata] at hown
    obtain rfl := Option.some.inj hown
    rw [Nat.mod_eq_of_lt hshort, List.getElem?_eq_none (Nat.le_refl _)] at hat
    cases hat

/-- The pages of a file give its bytes in place exactly when they fill in order. -/
theorem inPlace_iff {pages : List (Option (List UInt8))} {missing : ℕ} {out : List UInt8}
    (h : inflatePages codecs pages missing = some out) :
    InPlace codecs pages missing out ↔ FillsInOrder codecs pages missing := by
  induction pages generalizing missing out with
  | nil =>
    obtain rfl := Option.some.inj h
    exact iff_of_true (fun o b hb => by simp at hb) .nil
  | cons stored rest ih =>
    obtain ⟨data, tail, hdata, htail, rfl⟩ := inflatePages_cons.mp h
    have hle := inflatePage_le hdata
    have htail_le := inflatePages_le htail
    constructor
    · intro hplace
      rcases Nat.lt_or_ge data.length (min page missing) with hlt | hge
      · obtain rfl := inPlace_short hdata (by omega) hplace
        exact .short hdata hlt (inflatePages_eq_nil.mp htail)
      · refine .full hdata (by omega) ((ih htail).mp ?_)
        rcases Nat.lt_or_ge data.length page with hlast | hfull
        · -- the file ends in this page, so nothing follows it
          obtain rfl : tail = [] := List.eq_nil_of_length_eq_zero (by omega)
          exact fun o b hb => by simp at hb
        · have hpage : data.length = page := by omega
          rw [hpage]
          exact (inPlace_cons_full hdata hpage).mp hplace
    · intro hfills
      cases hfills with
      | full hown hfull hrest =>
        obtain rfl := Option.some.inj (hdata.symm.trans hown)
        rcases Nat.lt_or_ge data.length page with hlast | hge
        · obtain rfl : tail = [] := List.eq_nil_of_length_eq_zero (by omega)
          rw [List.append_nil]
          exact inPlace_first hdata
        · have hpage : data.length = page := by omega
          rw [hpage] at htail hrest
          exact (inPlace_cons_full hdata hpage).mpr ((ih htail).mpr hrest)
      | short hown hshort hrest =>
        obtain rfl := Option.some.inj (hdata.symm.trans hown)
        obtain rfl := Option.some.inj (htail.symm.trans (inflatePages_eq_nil.mpr hrest))
        rw [List.append_nil]
        exact inPlace_first hdata

/-- A file that is read whole has its bytes in place exactly when its pages fill
it in order. -/
theorem readWhole_inPlace_iff {inode : CrInode} {out : List UInt8}
    (h : readWhole codecs src inode = .ok out) :
    ∃ pages, filePages src inode = .ok pages ∧
      (InPlace codecs pages inode.size out ↔ FillsInOrder codecs pages inode.size) := by
  obtain ⟨total, htotal, h⟩ := bind_eq_ok.mp h
  obtain ⟨-, rfl⟩ := checkedFullReadLen_eq_ok.mp htotal
  unfold filePages
  by_cases hzero : inode.size = 0
  · rw [if_pos hzero] at h ⊢
    obtain rfl := Except.ok.inj h
    exact ⟨[], rfl, inPlace_iff rfl⟩
  · rw [if_neg hzero] at h ⊢
    obtain ⟨idx, hidx, h⟩ := bind_eq_ok.mp h
    obtain ⟨start, hstart, h⟩ := bind_eq_ok.mp h
    obtain ⟨-, rfl⟩ := fits_eq_ok.mp hstart
    obtain ⟨read, hread, h⟩ := bind_eq_ok.mp h
    obtain rfl := Except.ok.inj h
    obtain ⟨pages, more, hpages, hmore, hread⟩ := readPages_eq_ok.mp hread
    rw [List.length_nil, Nat.sub_zero] at hmore
    rw [hread, List.nil_append, List.take_of_length_le (inflatePages_le hmore)]
    exact ⟨pages, bind_eq_ok.mpr ⟨idx, hidx, hpages⟩, inPlace_iff hmore⟩

theorem readWhole_inPlace_iff_shortPage :
    ∃ pages, filePages shortPage ⟨0x81A4, 3, 4, 92⟩ = .ok pages ∧
      (InPlace zeroByteZlib pages 3 [0] ↔ FillsInOrder zeroByteZlib pages 3) := by
  have hread : readWhole zeroByteZlib shortPage ⟨0x81A4, 3, 4, 92⟩ = .ok [0] := by
    decide +kernel
  exact readWhole_inPlace_iff hread

/-- A volume whose file, at 76, declares one byte more than a page and has two
pages, each the stream of one byte. -/
def twoShortPages : Source where
  content := [0x45, 0x3D, 0xCD, 0x28] ++ List.replicate 60 0 ++
    [0xED, 0x41, 0, 0, 16, 0, 0, 0, 0xC0, 0x04, 0, 0] ++
    [0xA4, 0x81, 0, 0, 1, 16, 0, 0, 0xC1, 0x05, 0, 0] ++ [0x61, 0, 0, 0] ++
    [109, 0, 0, 0, 118, 0, 0, 0] ++ zeroByteStream ++ zeroByteStream
  length_lt := by decide

/-- The byte of the second page, which starts at 4096, is read at offset 1. -/
theorem readWhole_twoShortPages :
    mount twoShortPages = .ok ⟨twoShortPages⟩ ∧
      parseInode twoShortPages 76 = .ok ⟨0x81A4, 4097, 4, 92⟩ ∧
      filePages twoShortPages ⟨0x81A4, 4097, 4, 92⟩ =
        .ok [some zeroByteStream, some zeroByteStream] ∧
      readWhole zeroByteZlib twoShortPages ⟨0x81A4, 4097, 4, 92⟩ = .ok [0, 0] ∧
      ¬ InPlace zeroByteZlib [some zeroByteStream, some zeroByteStream] 4097 [0, 0] := by
  refine ⟨by decide +kernel, by decide +kernel, by decide +kernel, by decide +kernel, ?_⟩
  intro h
  obtain ⟨data, hdata, hat⟩ := h 1 0 rfl
  have hpage : pageData zeroByteZlib [some zeroByteStream, some zeroByteStream] 4097 (1 / page) =
      some [0] := by decide +kernel
  obtain rfl := Option.some.inj (hpage.symm.trans hdata)
  cases hat

end Lamfold.Cramfs
