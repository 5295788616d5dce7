import Lamfold.RockRidgeSplit
import Mathlib.Data.List.ReduceOption

/-!
What Rock Ridge makes of a record. Each entry of its areas is taken in by the parser, one after
another; at the end the record has the name that its `NM` entries give, the target of its `SL`
entries, and the parameters of its last `ZF` entry, as far as it has such entries.
-/
namespace Lamfold.RockRidge

open Effects Bytes Utf8 Iso9660

/-- The parser after one more entry. -/
def RrParser.added (parser : RrParser) (e : Entry) : RrParser :=
  match parser.entry e.sig e.data with
  | .ok parser => parser
  | .error _ => parser

theorem entry_added (parser : RrParser) (e : Entry) :
    parser.entry e.sig e.data = .ok (parser.added e) := by
  obtain ⟨parser', h⟩ := entry_ok parser e.sig e.data
  rw [RrParser.added, h]

/-- The entries of an area are taken in, and the last pointer among them is kept. -/
theorem feedFrom_added {rest : List UInt8} (hends : Ends rest) (entries : List Entry)
    (pre : List UInt8) (parser : RrParser) (next : Option Continuation) :
    RrParser.feedFrom (pre ++ (entries.flatMap Entry.encode ++ rest)) parser next pre.length =
      .ok (entries.foldl RrParser.added parser,
        (entries.filterMap Entry.pointer).getLast?.or next) := by
  induction entries generalizing pre parser next with
  | nil => exact feedFrom_ends hends pre parser next
  | cons e entries ih =>
    have hsplit : pre ++ ((e :: entries).flatMap Entry.encode ++ rest) =
        pre ++ e.encode ++ (entries.flatMap Entry.encode ++ rest) := by
      simp only [List.flatMap_cons, List.append_assoc]
    rw [hsplit, feedFrom_entry, entry_added, ok_bind, ih, getLast_pointer, List.foldl_cons]

theorem feed_added (area : Area) (parser : RrParser) :
    parser.feed area.encode =
      .ok (area.entries.foldl RrParser.added parser, area.pointers.getLast?) := by
  have hfeed := feedFrom_added area.ends area.entries [] parser none
  rwa [Option.or_none] at hfeed

/-- An area is taken in, with the areas that it leads to. -/
theorem parseContinuations_added {vol : Volume} {area : Area} {rest : List Area}
    (h : Linked vol area rest) {left : ℕ} (hleft : rest.length ≤ left) (parser : RrParser) :
    (do
      let (parser, next) ← parser.feed area.encode
      parseContinuations vol parser next left : Outcome RrParser) =
        .ok (((area :: rest).flatMap Area.entries).foldl RrParser.added parser) := by
  induction h generalizing left parser with
  | @last area hlast =>
    rw [feed_added, ok_bind, hlast, List.flatMap_singleton]
    simp only [List.getLast?_nil, parseContinuations]
    rfl
  | @next area next rest ce hce hlen hpos hblock hplace hrest ih =>
    rw [List.length_cons] at hleft
    obtain ⟨left, rfl⟩ := Nat.exists_eq_succ_of_ne_zero (show left ≠ 0 by omega)
    have hsize : ¬(ce.len = 0 ∨ ce.len > vol.blockSize) := by omega
    have hmore := ih (Nat.le_of_succ_le_succ hleft) (area.entries.foldl RrParser.added parser)
    rw [feed_added, ok_bind, hce]
    dsimp only [List.getLast?_singleton]
    rw [parseContinuations, if_neg hsize, readContinuation_of_slice hplace, List.flatMap_cons,
      List.foldl_append]
    exact hmore

theorem parseRockRidge_linked {vol : Volume} {record : Area} {areas : List Area}
    (h : Linked vol record areas) (hmax : areas.length ≤ maxContinuations) :
    parseRockRidge vol record.encode =
      .ok (((record :: areas).flatMap Area.entries).foldl RrParser.added .default).finish := by
  unfold parseRockRidge
  rw [← bind_assoc, lift_self, parseContinuations_added h hmax]
  rfl

/-- Only an `SL` entry says that there is a target, and only a `ZF` entry how the file is
compressed; the name and the target are not in the record before its end. -/
structure Leaves (sig : List UInt8) (parser parser' : RrParser) : Prop where
  infoName : parser'.info.name = parser.info.name
  infoTarget : parser'.info.symlinkTarget = parser.info.symlinkTarget
  haveSl : sig ≠ sigSl → parser'.haveSl = parser.haveSl
  zisofs : sig ≠ sigZf → parser'.info.zisofs = parser.info.zisofs

theorem Leaves.refl (sig : List UInt8) (parser : RrParser) : Leaves sig parser parser :=
  ⟨rfl, rfl, fun _ => rfl, fun _ => rfl⟩

theorem entry_leaves {parser parser' : RrParser} {sig data : List UInt8}
    (h : parser.entry sig data = .ok parser') : Leaves sig parser parser' := by
  unfold RrParser.entry at h
  split at h
  · split at h
    · obtain rfl := Except.ok.inj h
      exact .refl sig parser
    · split at h
      · obtain rfl := Except.ok.inj h
        exact ⟨rfl, rfl, fun _ => rfl, fun _ => rfl⟩
      · obtain rfl := Except.ok.inj h
        exact .refl sig parser
  split at h
  · split at h
    · obtain ⟨mode, -, h⟩ := bind_eq_ok.mp h
      obtain rfl := Except.ok.inj h
      exact ⟨rfl, rfl, fun _ => rfl, fun _ => rfl⟩
    · obtain rfl := Except.ok.inj h
      exact .refl sig parser
  split at h
  · rename_i hsl
    split at h
    · obtain rfl := Except.ok.inj h
      exact ⟨rfl, rfl, fun hne => absurd hsl hne, fun _ => rfl⟩
    · obtain ⟨⟨sl, slContinues⟩, -, h⟩ := bind_eq_ok.mp h
      obtain rfl := Except.ok.inj h
      exact ⟨rfl, rfl, fun hne => absurd hsl hne, fun _ => rfl⟩
  split at h
  · rename_i hzf
    split at h
    · obtain ⟨algorithm, -, h⟩ := bind_eq_ok.mp h
      split at h
      · obtain ⟨log2, -, h⟩ := bind_eq_ok.mp h
        obtain ⟨size, -, h⟩ := bind_eq_ok.mp h
        obtain rfl := Except.ok.inj h
        exact ⟨rfl, rfl, fun _ => rfl, fun hne => absurd hzf hne⟩
      · obtain rfl := Except.ok.inj h
        exact .refl sig parser
    · obtain rfl := Except.ok.inj h
      exact .refl sig parser
  · obtain rfl := Except.ok.inj h
    exact .refl sig parser

/-- A `ZF` entry for zisofs. The size of the header in the file is not read. -/
structure ZfFields where
  headerWords : UInt8
  log2 : UInt8
  size : UInt32

namespace ZfFields

def data (zf : ZfFields) : List UInt8 :=
  zisofsAlgorithm ++ [zf.headerWords, zf.log2] ++ bothEndian zf.size.toNat

def zisofs (zf : ZfFields) : Zisofs := ⟨zf.size.toNat, zf.log2.toNat⟩

end ZfFields

/-- How an entry says that its file is compressed. -/
inductive Compresses (e : Entry) : Option Zisofs → Prop
  | zisofs {zf : ZfFields} (hsig : e.sig = sigZf) (hdata : e.data = zf.data) :
      Compresses e (some zf.zisofs)
  | otherAlgorithm {algorithm rest : List UInt8} (hsig : e.sig = sigZf)
      (hdata : e.data = algorithm ++ rest) (hlen : algorithm.length = 2)
      (hother : algorithm ≠ zisofsAlgorithm) : Compresses e none
  | other (hsig : e.sig ≠ sigZf) : Compresses e none

theorem entry_zf (parser : RrParser) (zf : ZfFields) :
    parser.entry sigZf zf.data =
      .ok { parser with info := { parser.info with zisofs := some zf.zisofs } } := by
  have hlen : zf.data.length = 12 := by
    simp [ZfFields.data, zisofsAlgorithm, bothEndian]
  have halgorithm : slice zf.data 0 2 = some zisofsAlgorithm :=
    @slice_of_append _ _ [] zisofsAlgorithm ([zf.headerWords, zf.log2] ++ bothEndian zf.size.toNat)
      _ _ (List.append_assoc ..) rfl rfl
  have hlog2 : zf.data[3]? = some zf.log2 := rfl
  have hsize : le32 zf.data 4 = .ok zf.size.toNat :=
    @le32_of_append _ (zisofsAlgorithm ++ [zf.headerWords, zf.log2]) (beBytes 4 zf.size.toNat) _ _
      (List.append_assoc ..).symm rfl zf.size.toNat_lt
  have hnm : sigZf ≠ sigNm := by decide
  have hpx : sigZf ≠ sigPx := by decide
  have hsl : sigZf ≠ sigSl := by decide
  unfold RrParser.entry
  rw [if_neg hnm, if_neg hpx, if_neg hsl, if_pos rfl, if_pos (by omega), halgorithm, unwrap, ok_bind,
    if_pos rfl, hlog2, unwrap, ok_bind, hsize]
  rfl

theorem entry_otherAlgorithm (parser : RrParser) {algorithm rest : List UInt8}
    (hlen : algorithm.length = 2) (hother : algorithm ≠ zisofsAlgorithm) :
    parser.entry sigZf (algorithm ++ rest) = .ok parser := by
  have halgorithm : slice (algorithm ++ rest) 0 2 = some algorithm :=
    @slice_of_append _ _ [] algorithm rest _ _ rfl rfl hlen.symm
  have hnm : sigZf ≠ sigNm := by decide
  have hpx : sigZf ≠ sigPx := by decide
  have hsl : sigZf ≠ sigSl := by decide
  unfold RrParser.entry
  rw [if_neg hnm, if_neg hpx, if_neg hsl, if_pos rfl, halgorithm, unwrap, ok_bind, if_neg hother]
  exact ite_self _

theorem zisofs_added (parser : RrParser) {e : Entry} {zi : Option Zisofs} (h : Compresses e zi) :
    (parser.added e).info.zisofs = zi.or parser.info.zisofs := by
  have hentry := entry_added parser e
  cases h with
  | @zisofs zf hsig hdata =>
    rw [hsig, hdata, entry_zf] at hentry
    rw [← Except.ok.inj hentry]
    rfl
  | otherAlgorithm hsig hdata hlen hother =>
    rw [hsig, hdata, entry_otherAlgorithm _ hlen hother] at hentry
    rw [← Except.ok.inj hentry]
    rfl
  | other hsig => exact (entry_leaves hentry).zisofs hsig

/-- The last entry for zisofs counts. -/
theorem zisofs_foldl {entries : List Entry} {zis : List (Option Zisofs)}
    (h : List.Forall₂ Compresses entries zis) (parser : RrParser) :
    (entries.foldl RrParser.added parser).info.zisofs =
      zis.reduceOption.getLast?.or parser.info.zisofs := by
  induction h generalizing parser with
  | nil => rfl
  | @cons e zi entries zis hfirst _ ih =>
    rw [List.foldl_cons, ih, zisofs_added parser hfirst]
    cases zi with
    | none => rfl
    | some zi =>
      rw [List.reduceOption_cons_of_some, List.getLast?_cons]
      cases zis.reduceOption.getLast? <;> rfl

theorem gathers_foldl (entries : List Entry) {parser : RrParser} (hknown : Known parser) :
    Gathers parser entries (entries.foldl RrParser.added parser) ∧
      Known (entries.foldl RrParser.added parser) := by
  induction entries generalizing parser with
  | nil => exact ⟨.refl parser, hknown⟩
  | cons e entries ih =>
    obtain ⟨middle, hentry, hgathers, hmiddle⟩ := entry_gathers e hknown
    obtain rfl : parser.added e = middle := Except.ok.inj ((entry_added parser e).symm.trans hentry)
    obtain ⟨hrest, hlast⟩ := ih hmiddle
    exact ⟨hgathers.append hrest, hlast⟩

theorem info_foldl (entries : List Entry) (parser : RrParser) :
    (entries.foldl RrParser.added parser).info.name = parser.info.name ∧
      (entries.foldl RrParser.added parser).info.symlinkTarget = parser.info.symlinkTarget := by
  induction entries generalizing parser with
  | nil => exact ⟨rfl, rfl⟩
  | cons e entries ih =>
    have hleaves := entry_leaves (entry_added parser e)
    obtain ⟨hname, htarget⟩ := ih (parser.added e)
    exact ⟨hname.trans hleaves.infoName, htarget.trans hleaves.infoTarget⟩

theorem haveSl_foldl {entries : List Entry} (h : ∀ e ∈ entries, e.sig ≠ sigSl) (parser : RrParser) :
    (entries.foldl RrParser.added parser).haveSl = parser.haveSl := by
  induction entries generalizing parser with
  | nil => rfl
  | cons e entries ih =>
    have hrest := ih (fun e he => h e (List.mem_cons_of_mem _ he)) (parser.added e)
    exact hrest.trans ((entry_leaves (entry_added parser e)).haveSl (h e List.mem_cons_self))

/-- The name that entries give together, if it is one. -/
def nameOf (entries : List Entry) : Option Str :=
  let name := entries.flatMap Entry.namePart
  if name ≠ [] ∧ isUtf8 name then some name else none

/-- What entries say of a file: its name, the target of a link, and how it is compressed. -/
structure Says (entries : List Entry) (name : Option Str) (target : Option Target)
    (zi : Option Zisofs) : Prop where
  name : name = nameOf entries
  noTarget : target = none → ∀ e ∈ entries, e.sig ≠ sigSl
  target : ∀ t, target = some t → t.CutInto (entries.flatMap Entry.pieces)
  zisofs : ∃ zis, List.Forall₂ Compresses entries zis ∧ zi = zis.reduceOption.getLast?

theorem finish_name {parser : RrParser} (hknown : Known parser) (hinfo : parser.info.name = none) :
    parser.finish.name = if parser.name ≠ [] ∧ isUtf8 parser.name then some parser.name else none := by
  have hkeep : ∀ info : RrInfo, (if parser.haveSl then
      { info with symlinkTarget := some parser.sl } else info).name = info.name := by
    intro info
    split
    · rfl
    · rfl
  unfold RrParser.finish
  dsimp only
  rw [hkeep]
  by_cases hname : parser.name ≠ [] ∧ isUtf8 parser.name = true
  · have hfrom : fromUtf8 parser.name = some parser.name := if_pos hname.2
    rw [if_pos hname, if_pos (hknown.name hname.1), hfrom]
    dsimp only
    rw [if_pos hname.1]
  · rw [if_neg hname]
    split
    · split
      · rename_i s hs
        obtain ⟨hutf8, rfl⟩ := fromUtf8_eq_some.mp hs
        rw [if_neg fun hne => hname ⟨hne, hutf8⟩]
        exact hinfo
      · exact hinfo
    · exact hinfo

theorem finish_zisofs (parser : RrParser) : parser.finish.zisofs = parser.info.zisofs := by
  unfold RrParser.finish
  dsimp only
  split
  · split
    · split
      · split <;> rfl
      · rfl
    · rfl
  · split
    · split
      · split <;> rfl
      · rfl
    · rfl

theorem finish_target {parser : RrParser} (hinfo : parser.info.symlinkTarget = none) :
    parser.finish.symlinkTarget = if parser.haveSl then some parser.sl else none := by
  unfold RrParser.finish
  dsimp only
  split
  · rfl
  · split
    · split
      · split
        · exact hinfo
        · exact hinfo
      · exact hinfo
    · exact hinfo

/-- A record is parsed to what the entries of its areas say. -/
theorem parseRockRidge_said {vol : Volume} {record : Area} {areas : List Area}
    (hlinked : Linked vol record areas) (hmax : areas.length ≤ maxContinuations)
    {name : Option Str} {target : Option Target} {zi : Option Zisofs}
    (h : Says ((record :: areas).flatMap Area.entries) name target zi) :
    ∃ info, parseRockRidge vol record.encode = .ok info ∧ info.name = name ∧
      info.symlinkTarget = target.map Target.text ∧ info.zisofs = zi := by
  have hstart : Known .default := ⟨fun h => absurd rfl h, fun h => absurd rfl h⟩
  obtain ⟨zis, hzis, hlast⟩ := h.zisofs
  obtain ⟨hgathers, hknown⟩ := gathers_foldl ((record :: areas).flatMap Area.entries) hstart
  obtain ⟨hname, htarget⟩ := info_foldl ((record :: areas).flatMap Area.entries) .default
  have hparts := hgathers.name
  rw [show RrParser.default.name = [] from rfl, List.nil_append] at hparts
  refine ⟨_, parseRockRidge_linked hlinked hmax, ?_, ?_, ?_⟩
  · rw [finish_name hknown hname, hparts, h.name]
    rfl
  · rw [finish_target htarget]
    cases target with
    | none =>
      rw [haveSl_foldl (h.noTarget rfl)]
      rfl
    | some t =>
      have hsl := (Prod.ext_iff.mp (hgathers.target.trans (foldl_target (h.target t rfl)))).1
      dsimp only at hsl
      rw [if_pos (hknown.target (hsl ▸ t.text_ne)), hsl]
      rfl
  · rw [finish_zisofs, zisofs_foldl hzis, hlast]
    exact Option.or_none

end Lamfold.RockRidge
