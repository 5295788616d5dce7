import Lamfold.IsoAnswers

/-!
Rock Ridge names and symlink targets, written and read back. A name is cut into `NM`
entries, and a target into the components of `SL` entries; the entries lie in the
System Use area of a record and in continuation areas, each of which the one before
points to. However they are cut and spread, the parser puts them together again.
-/
namespace Lamfold.RockRidge

open Effects Bytes Utf8 Iso9660

/-- A component of a target, after the root. -/
inductive Component
  | current
  | parent
  | name (text : List UInt8)

def Component.text : Component → List UInt8
  | .current => [0x2E]
  | .parent => [0x2E, 0x2E]
  | .name text => text

/-- A symlink target, which may start at the root. -/
structure Target where
  root : Bool
  components : List Component
  nonempty : root = true ∨ components ≠ []
  names : ∀ text, .name text ∈ components → text ≠ [] ∧ 0x2F ∉ text

namespace Target

/-- The slash of the root. -/
def rootText (target : Target) : List UInt8 := if target.root then [0x2F] else []

def text (target : Target) : List UInt8 :=
  target.rootText ++ [0x2F].intercalate (target.components.map Component.text)

end Target

/-- A component as an `SL` entry holds it: a name may be cut into parts, each of which
but the last goes on in the next. -/
inductive Piece
  | root
  | current
  | parent
  | part (bytes : List UInt8) (more : Bool)

/-- The flag of what goes on in the next entry or component. -/
def moreFlag : Bool → UInt8
  | true => 0x01
  | false => 0x00

/-- The flag is none of those with a meaning of their own. -/
theorem moreFlag_plain (more : Bool) :
    moreFlag more &&& 0x08 = 0 ∧ moreFlag more &&& 0x02 = 0 ∧ moreFlag more &&& 0x04 = 0 := by
  cases more <;> decide

namespace Piece

def flags : Piece → UInt8
  | root => 0x08
  | current => 0x02
  | parent => 0x04
  | part _ more => moreFlag more

def content : Piece → List UInt8
  | part bytes _ => bytes
  | _ => []

def more : Piece → Bool
  | part _ more => more
  | _ => false

def encode (p : Piece) : List UInt8 := p.flags :: .ofNat p.content.length :: p.content

theorem more_eq (p : Piece) : decide (p.flags &&& 0x01 ≠ 0) = p.more := by
  cases p with
  | root => rfl
  | current => rfl
  | parent => rfl
  | part bytes more => cases more <;> simp [flags, moreFlag, Piece.more]

end Piece

/-- The parts of a name, in order. -/
def cutName : List (List UInt8) → List Piece
  | [] => []
  | [part] => [.part part false]
  | part :: next :: parts => .part part true :: cutName (next :: parts)

/-- The pieces that a component is cut into. -/
inductive Cut : Component → List Piece → Prop
  | current : Cut .current [.current]
  | parent : Cut .parent [.parent]
  | name {parts : List (List UInt8)} (hne : parts ≠ []) : Cut (.name parts.flatten) (cutName parts)

namespace Target

def rootPieces (target : Target) : List Piece := if target.root then [.root] else []

/-- The pieces that a target is cut into. -/
def CutInto (target : Target) (pieces : List Piece) : Prop :=
  ∃ cuts, List.Forall₂ Cut target.components cuts ∧ pieces = target.rootPieces ++ cuts.flatten

end Target

/-- The target so far, and whether its last component goes on, with one more piece. -/
def addPiece (soFar : List UInt8 × Bool) (p : Piece) : List UInt8 × Bool :=
  (slComponent p.flags p.content soFar.1 soFar.2, p.more)

/-- The target so far, ready for a component. -/
def separated (out : List UInt8) (continues : Bool) : List UInt8 :=
  if ¬continues ∧ out ≠ [] ∧ out.getLast? ≠ some 0x2F then out ++ [0x2F] else out

theorem separated_continues (out : List UInt8) : separated out true = out := by
  simp [separated]

theorem separated_slash {out : List UInt8} (h : out = [] ∨ out.getLast? = some 0x2F) :
    separated out false = out := by
  unfold separated
  apply if_neg
  intro ⟨_, hne, hlast⟩
  exact h.elim hne hlast

theorem separated_name {out : List UInt8} (hne : out ≠ []) (hlast : out.getLast? ≠ some 0x2F) :
    separated out false = out ++ [0x2F] := by
  simp [separated, hne, hlast]

theorem addPiece_part (bytes : List UInt8) (more : Bool) (out : List UInt8) (continues : Bool) :
    addPiece (out, continues) (.part bytes more) = (separated out continues ++ bytes, more) := by
  obtain ⟨hroot, hcurrent, hparent⟩ := moreFlag_plain more
  simp [addPiece, slComponent, separated, Piece.flags, Piece.content, Piece.more, hroot, hcurrent,
    hparent]

/-- The parts of a name put it after the target so far. -/
theorem foldl_cutName {parts : List (List UInt8)} (hne : parts ≠ []) (out : List UInt8)
    (continues : Bool) :
    (cutName parts).foldl addPiece (out, continues) =
      (separated out continues ++ parts.flatten, false) := by
  induction parts generalizing out continues with
  | nil => exact absurd rfl hne
  | cons part parts ih =>
    cases parts with
    | nil =>
      rw [cutName, List.foldl_cons, addPiece_part, List.foldl_nil, List.flatten_singleton]
    | cons next parts =>
      rw [cutName, List.foldl_cons, addPiece_part, ih (List.cons_ne_nil next parts),
        separated_continues, List.append_assoc]
      rfl

theorem foldl_cut {c : Component} {pieces : List Piece} (h : Cut c pieces) (out : List UInt8) :
    pieces.foldl addPiece (out, false) = (separated out false ++ c.text, false) := by
  cases h with
  | current => rfl
  | parent => rfl
  | name hne => exact foldl_cutName hne out false

/-- A component has a text, which no slash ends. -/
def Named (c : Component) : Prop := c.text ≠ [] ∧ c.text.getLast? ≠ some 0x2F

theorem Target.named (target : Target) {c : Component} (hc : c ∈ target.components) : Named c := by
  cases c with
  | current => exact ⟨by decide, by decide⟩
  | parent => exact ⟨by decide, by decide⟩
  | name text =>
    obtain ⟨hne, hslash⟩ := target.names text hc
    exact ⟨hne, fun hlast => hslash (List.mem_of_getLast? hlast)⟩

/-- After a component, each next one comes behind a slash. -/
theorem foldl_cuts {cs : List Component} {cuts : List (List Piece)} (h : List.Forall₂ Cut cs cuts)
    (hnamed : ∀ c ∈ cs, Named c) {out : List UInt8} (hne : out ≠ [])
    (hlast : out.getLast? ≠ some 0x2F) :
    cuts.flatten.foldl addPiece (out, false) =
      (out ++ (cs.map Component.text).flatMap (0x2F :: ·), false) := by
  induction h generalizing out with
  | nil => simp
  | @cons c pieces cs cuts hcut hrest ih =>
    obtain ⟨hcne, hclast⟩ := hnamed c List.mem_cons_self
    have hne' : out ++ [0x2F] ++ c.text ≠ [] := List.append_ne_nil_of_right_ne_nil _ hcne
    have hlast' : (out ++ [0x2F] ++ c.text).getLast? ≠ some 0x2F := by
      rwa [List.getLast?_append_of_ne_nil _ hcne]
    have hrest := ih (fun d hd => hnamed d (List.mem_cons_of_mem _ hd)) hne' hlast'
    rw [List.flatten_cons, List.foldl_append, foldl_cut hcut, separated_name hne hlast, hrest]
    simp

theorem intercalate_cons (sep first : List UInt8) (rest : List (List UInt8)) :
    sep.intercalate (first :: rest) = first ++ rest.flatMap (sep ++ ·) := by
  induction rest generalizing first with
  | nil => simp
  | cons next rest ih => rw [List.intercalate_cons_cons, ih, List.flatMap_cons, List.append_assoc,
      List.append_assoc]

/-- At the start of a target or behind the root, components are joined by slashes. -/
theorem foldl_components {cs : List Component} {cuts : List (List Piece)}
    (h : List.Forall₂ Cut cs cuts) (hnamed : ∀ c ∈ cs, Named c) {out : List UInt8}
    (hout : out = [] ∨ out.getLast? = some 0x2F) :
    cuts.flatten.foldl addPiece (out, false) =
      (out ++ [0x2F].intercalate (cs.map Component.text), false) := by
  cases h with
  | nil => simp
  | @cons c pieces cs cuts hcut hrest =>
    obtain ⟨hcne, hclast⟩ := hnamed c List.mem_cons_self
    have hne : out ++ c.text ≠ [] := List.append_ne_nil_of_right_ne_nil _ hcne
    have hlast : (out ++ c.text).getLast? ≠ some 0x2F := by
      rwa [List.getLast?_append_of_ne_nil _ hcne]
    have hafter := foldl_cuts hrest (fun d hd => hnamed d (List.mem_cons_of_mem _ hd)) hne hlast
    rw [List.flatten_cons, List.foldl_append, foldl_cut hcut, separated_slash hout, hafter,
      List.map_cons, intercalate_cons, List.append_assoc]
    rfl

/-- The pieces of a target are put together to its text. -/
theorem foldl_target {target : Target} {pieces : List Piece} (h : target.CutInto pieces) :
    pieces.foldl addPiece ([], false) = (target.text, false) := by
  obtain ⟨cuts, hcuts, rfl⟩ := h
  have hnamed : ∀ c ∈ target.components, Named c := fun c hc => target.named hc
  have hroot : target.rootPieces.foldl addPiece ([], false) = (target.rootText, false) := by
    unfold Target.rootPieces Target.rootText
    cases target.root <;> rfl
  have hstart : target.rootText = [] ∨ target.rootText.getLast? = some 0x2F := by
    unfold Target.rootText
    cases target.root
    · exact .inl rfl
    · exact .inr rfl
  rw [List.foldl_append, hroot, foldl_components hcuts hnamed hstart, Target.text]

theorem Target.text_ne (target : Target) : target.text ≠ [] := by
  cases hroot : target.root with
  | true => simp [Target.text, Target.rootText, hroot]
  | false =>
    obtain hbad | hne := target.nonempty
    · rw [hroot] at hbad
      cases hbad
    · obtain ⟨c, cs, hcs⟩ := List.exists_cons_of_ne_nil hne
      have hc := (target.named (hcs ▸ List.mem_cons_self)).1
      rw [Target.text, hcs, List.map_cons, intercalate_cons]
      simp [hc]

/-- A piece is read, and the ones after it from its end on. -/
theorem parseSlComponents_piece (p : Piece) (hp : p.content.length < 2 ^ 8) (rest out : List UInt8)
    (continues : Bool) :
    parseSlComponents (p.encode ++ rest) out continues =
      parseSlComponents rest (addPiece (out, continues) p).1 (addPiece (out, continues) p).2 := by
  have hlen : (UInt8.ofNat p.content.length).toNat = p.content.length := UInt8.toNat_ofNat_of_lt' hp
  have hencode : (p.encode ++ rest).length = 2 + p.content.length + rest.length := by
    simp only [Piece.encode, List.length_append, List.length_cons]
    omega
  have hsize : 2 ≤ (p.encode ++ rest).length := by omega
  have hroom : ¬2 + p.content.length > (p.encode ++ rest).length := by omega
  have hcontent : slice (p.encode ++ rest) 2 p.content.length = some p.content :=
    @slice_of_append _ _ [p.flags, .ofNat p.content.length] p.content rest _ _ rfl rfl rfl
  have hdrop : (p.encode ++ rest).drop (2 + p.content.length) = rest := by
    apply List.drop_left'
    simp only [Piece.encode, List.length_cons]
    omega
  have hflags : (p.encode ++ rest)[0]? = some p.flags := rfl
  have hclen : (p.encode ++ rest)[1]? = some (.ofNat p.content.length) := rfl
  rw [parseSlComponents, if_pos hsize, hflags, unwrap, ok_bind, hclen, unwrap, ok_bind, hlen,
    if_neg hroom, hcontent, unwrap, ok_bind, hdrop, p.more_eq]
  rfl

theorem parseSlComponents_encode {pieces : List Piece} (h : ∀ p ∈ pieces, p.content.length < 2 ^ 8)
    (soFar : List UInt8 × Bool) :
    parseSlComponents (pieces.flatMap Piece.encode) soFar.1 soFar.2 =
      .ok (pieces.foldl addPiece soFar) := by
  induction pieces generalizing soFar with
  | nil =>
    rw [List.flatMap_nil, parseSlComponents]
    rfl
  | cons p pieces ih =>
    have hp := h p List.mem_cons_self
    rw [List.flatMap_cons, parseSlComponents_piece p hp, List.foldl_cons]
    exact ih (fun q hq => h q (List.mem_cons_of_mem _ hq)) _

/-- An entry of a System Use area: a part of a name, components of a target, a pointer
to a continuation area, or one of another kind. -/
inductive Entry
  | nm (more : Bool) (part : List UInt8) (hlen : part.length ≤ 250)
  | sl (more : Bool) (pieces : List Piece) (hlen : (pieces.flatMap Piece.encode).length ≤ 250)
  | ce (area : Continuation) (hblock : area.block < 2 ^ 32) (hoffset : area.offset < 2 ^ 32)
      (hlen : area.len < 2 ^ 32)
  | other (sig data : List UInt8) (hsig : sig.length = 2) (hlen : data.length ≤ 251)
      (hother : sig ∉ [sigNm, sigSl, sigCe, sigSt])

/-- A number in both byte orders. -/
def bothEndian (n : ℕ) : List UInt8 := leBytes 4 n ++ beBytes 4 n

namespace Entry

def sig : Entry → List UInt8
  | nm .. => sigNm
  | sl .. => sigSl
  | ce .. => sigCe
  | other sig .. => sig

def data : Entry → List UInt8
  | nm more part _ => moreFlag more :: part
  | sl more pieces _ => moreFlag more :: pieces.flatMap Piece.encode
  | ce area .. => bothEndian area.block ++ bothEndian area.offset ++ bothEndian area.len
  | other _ data .. => data

def encode (e : Entry) : List UInt8 := e.sig ++ [.ofNat (4 + e.data.length), 0x01] ++ e.data

/-- What the entry has of a name. -/
def namePart : Entry → List UInt8
  | nm _ part _ => part
  | _ => []

/-- What the entry has of a target. -/
def pieces : Entry → List Piece
  | sl _ pieces _ => pieces
  | _ => []

/-- The continuation area that the entry points to. -/
def pointer : Entry → Option Continuation
  | ce area .. => some area
  | _ => none

theorem sig_length (e : Entry) : e.sig.length = 2 := by
  cases e with
  | nm => rfl
  | sl => rfl
  | ce => rfl
  | other sig data hsig => exact hsig

theorem sig_ne_sigSt (e : Entry) : e.sig ≠ sigSt := by
  cases e with
  | nm => exact (by decide : sigNm ≠ sigSt)
  | sl => exact (by decide : sigSl ≠ sigSt)
  | ce => exact (by decide : sigCe ≠ sigSt)
  | other sig data hsig hlen hother =>
    intro hst
    apply hother
    simp [show sig = sigSt from hst]

theorem data_length (e : Entry) : e.data.length ≤ 251 := by
  cases e with
  | nm more part hlen => exact Nat.succ_le_succ hlen
  | sl more pieces hlen => exact Nat.succ_le_succ hlen
  | ce area hblock hoffset hlen => simp [data, bothEndian]
  | other sig data hsig hlen => exact hlen

theorem encode_length (e : Entry) : e.encode.length = 4 + e.data.length := by
  simp only [encode, List.length_append, e.sig_length, List.length_cons, List.length_nil]

end Entry

/-- What entries add to a parser. -/
structure Gathers (parser : RrParser) (entries : List Entry) (parser' : RrParser) : Prop where
  name : parser'.name = parser.name ++ entries.flatMap Entry.namePart
  target : (parser'.sl, parser'.slContinues) =
    (entries.flatMap Entry.pieces).foldl addPiece (parser.sl, parser.slContinues)

/-- What the parser has of a name or a target, it knows to have. -/
structure Known (parser : RrParser) : Prop where
  name : parser.name ≠ [] → parser.haveNm = true
  target : parser.sl ≠ [] → parser.haveSl = true

namespace Gathers

variable {parser middle parser' : RrParser} {entries more : List Entry}

theorem refl (parser : RrParser) : Gathers parser [] parser := ⟨(List.append_nil _).symm, rfl⟩

theorem append (h : Gathers parser entries middle) (h' : Gathers middle more parser') :
    Gathers parser (entries ++ more) parser' := by
  constructor
  · rw [h'.name, h.name, List.flatMap_append, List.append_assoc]
  · rw [h'.target, h.target, List.flatMap_append, List.foldl_append]

end Gathers

theorem le32_of_append {data pre post : List UInt8} {o n : ℕ}
    (hdata : data = pre ++ leBytes 4 n ++ post)
    (ho : o = pre.length) (hn : n < 2 ^ 32) : le32 data o = .ok n := by
  have hfield : slice data o 4 = some (leBytes 4 n) :=
    slice_of_append hdata ho (leBytes_length 4 n).symm
  rw [le32, hfield, unwrap, ok_bind, leNat_leBytes hn]
  rfl

/-- Only `NM` and `SL` entries touch the name and the target. -/
theorem entry_other (parser : RrParser) {sig data : List UInt8} (hnm : sig ≠ sigNm)
    (hsl : sig ≠ sigSl) : ∃ info, parser.entry sig data = .ok { parser with info := info } := by
  have hsame : ∃ info, (.ok parser : Outcome RrParser) = .ok { parser with info := info } :=
    ⟨parser.info, rfl⟩
  unfold RrParser.entry
  rw [if_neg hnm]
  by_cases hpx : sig = sigPx
  · rw [if_pos hpx]
    by_cases hlen : data.length ≥ 4
    · obtain ⟨mode, hmode⟩ := le32_ok data 0 hlen
      rw [if_pos hlen, hmode]
      exact ⟨_, rfl⟩
    · rw [if_neg hlen]
      exact hsame
  rw [if_neg hpx, if_neg hsl]
  by_cases hzf : sig = sigZf
  · rw [if_pos hzf]
    by_cases hlen : data.length ≥ 8
    · rw [if_pos hlen, unwrap_slice data 0 2 (by omega), ok_bind]
      by_cases hpz : (data.drop 0).take 2 = zisofsAlgorithm
      · obtain ⟨size, hsize⟩ := le32_ok data 4 hlen
        obtain ⟨log2, hlog2⟩ := getElem_ok data 3 (by omega)
        rw [if_pos hpz, hlog2, ok_bind, hsize]
        exact ⟨_, rfl⟩
      · rw [if_neg hpz]
        exact hsame
    · rw [if_neg hlen]
      exact hsame
  · rw [if_neg hzf]
    exact hsame

theorem Gathers.of_info (parser : RrParser) (info : RrInfo) {e : Entry} (hpart : e.namePart = [])
    (hpieces : e.pieces = []) : Gathers parser [e] { parser with info := info } := by
  constructor
  · rw [List.flatMap_singleton, hpart, List.append_nil]
  · rw [List.flatMap_singleton, hpieces]
    rfl

theorem content_lt {pieces : List Piece} {n : ℕ} (h : (pieces.flatMap Piece.encode).length ≤ n)
    {p : Piece} (hp : p ∈ pieces) : p.content.length < n := by
  have hmem := (List.sublist_flatten_of_mem (List.mem_map_of_mem (f := Piece.encode) hp)).length_le
  rw [← List.flatMap_def] at hmem
  simp only [Piece.encode, List.length_cons] at hmem
  omega

/-- An entry adds what it has. -/
theorem entry_gathers (e : Entry) {parser : RrParser} (hknown : Known parser) :
    ∃ parser', parser.entry e.sig e.data = .ok parser' ∧ Gathers parser [e] parser' ∧
      Known parser' := by
  cases e with
  | nm more part hlen =>
    have hplain : moreFlag more &&& 0x06 = 0 := by cases more <;> decide
    refine ⟨{ parser with name := parser.name ++ part, haveNm := true }, ?_, ?_, ?_⟩
    · simp only [RrParser.entry, Entry.sig, Entry.data, hplain, if_true]
    · constructor
      · rw [List.flatMap_singleton]
        rfl
      · rfl
    · exact ⟨fun _ => rfl, hknown.target⟩
  | sl more pieces hlen =>
    have hcontent : ∀ p ∈ pieces, p.content.length < 2 ^ 8 := by
      intro p hp
      have hlt := content_lt hlen hp
      omega
    obtain ⟨⟨sl, slContinues⟩, hfold⟩ : ∃ soFar, pieces.foldl addPiece (parser.sl, parser.slContinues) =
        soFar := ⟨_, rfl⟩
    have hparse := parseSlComponents_encode hcontent (parser.sl, parser.slContinues)
    rw [hfold] at hparse
    refine ⟨{ parser with haveSl := true, sl := sl, slContinues := slContinues }, ?_, ?_, ?_⟩
    · have hnm : sigSl ≠ sigNm := by decide
      have hpx : sigSl ≠ sigPx := by decide
      simp only [RrParser.entry, Entry.sig, Entry.data, if_neg hnm, if_neg hpx, if_true, hparse]
      rfl
    · constructor
      · exact (List.append_nil _).symm
      · rw [List.flatMap_singleton]
        exact hfold.symm
    · exact ⟨hknown.name, fun _ => rfl⟩
  | ce area hblock hoffset hlen =>
    have hnm : sigCe ≠ sigNm := by decide
    have hsl : sigCe ≠ sigSl := by decide
    obtain ⟨info, hentry⟩ := @entry_other parser _ (Entry.ce area hblock hoffset hlen).data hnm hsl
    exact ⟨_, hentry, .of_info parser info rfl rfl, hknown.name, hknown.target⟩
  | other sig data hsig hlen hother =>
    have hnm : sig ≠ sigNm := fun h => hother (by simp [h])
    have hsl : sig ≠ sigSl := fun h => hother (by simp [h])
    obtain ⟨info, hentry⟩ := @entry_other parser _ data hnm hsl
    exact ⟨_, hentry, .of_info parser info rfl rfl, hknown.name, hknown.target⟩

/-- A pointer is read back, and no other entry reads as one. -/
theorem continuation_entry (e : Entry) (next : Option Continuation) :
    continuation e.sig e.data next = .ok (e.pointer.or next) := by
  cases e with
  | nm => exact if_neg (by simp [Entry.sig, sigNm, sigCe])
  | sl => exact if_neg (by simp [Entry.sig, sigSl, sigCe])
  | ce area hblock hoffset hlen =>
    have hblock' : le32 (Entry.ce area hblock hoffset hlen).data 0 = .ok area.block :=
      @le32_of_append _ [] (beBytes 4 area.block ++ (bothEndian area.offset ++ bothEndian area.len))
        _ _ (by simp [Entry.data, bothEndian]) rfl hblock
    have hoffset' : le32 (Entry.ce area hblock hoffset hlen).data 8 = .ok area.offset :=
      @le32_of_append _ (bothEndian area.block) (beBytes 4 area.offset ++ bothEndian area.len) _ _
        (by simp [Entry.data, bothEndian]) (by simp [bothEndian]) hoffset
    have hlen' : le32 (Entry.ce area hblock hoffset hlen).data 16 = .ok area.len :=
      @le32_of_append _ (bothEndian area.block ++ bothEndian area.offset) (beBytes 4 area.len) _ _
        (by simp [Entry.data, bothEndian]) (by simp [bothEndian]) hlen
    have hsig : (Entry.ce area hblock hoffset hlen).sig = sigCe ∧
        (Entry.ce area hblock hoffset hlen).data.length ≥ 24 := by
      simp [Entry.sig, Entry.data, bothEndian]
    rw [continuation, if_pos hsig, hblock', ok_bind, hoffset', ok_bind, hlen', ok_bind]
    rfl
  | other sig data hsig hlen hother =>
    apply if_neg
    intro ⟨hce, _⟩
    exact hother (by simp [show sig = sigCe from hce])

/-- Bytes that hold no entry: too few of them, zeros, or what is behind an `ST` entry. -/
inductive Ends : List UInt8 → Prop
  | short {rest : List UInt8} (h : rest.length < 4) : Ends rest
  | zeros (n : ℕ) : Ends (List.replicate n 0)
  | terminated (rest : List UInt8) : Ends (sigSt ++ [0x04, 0x01] ++ rest)

/-- A System Use area: the one of a record, or a continuation area. -/
structure Area where
  entries : List Entry
  rest : List UInt8
  ends : Ends rest

namespace Area

def encode (area : Area) : List UInt8 := area.entries.flatMap Entry.encode ++ area.rest

/-- The continuation areas that the area points to. -/
def pointers (area : Area) : List Continuation := area.entries.filterMap Entry.pointer

end Area

/-- An entry is taken in, and the ones after it from its end on. -/
theorem feedFrom_entry (e : Entry) (pre post : List UInt8) (parser : RrParser)
    (next : Option Continuation) :
    RrParser.feedFrom (pre ++ e.encode ++ post) parser next pre.length = (do
      let parser ← parser.entry e.sig e.data
      RrParser.feedFrom (pre ++ e.encode ++ post) parser (e.pointer.or next)
        (pre ++ e.encode).length) := by
  have hdata := e.data_length
  have hsig := e.sig_length
  have hencode := e.encode_length
  have hfits : 4 + e.data.length < 2 ^ 8 := by omega
  have hlen : (UInt8.ofNat (4 + e.data.length)).toNat = 4 + e.data.length :=
    UInt8.toNat_ofNat_of_lt' hfits
  have hin : pre.length + 4 ≤ (pre ++ e.encode ++ post).length := by
    rw [List.length_append, List.length_append]
    omega
  have hwhole : ¬(4 + e.data.length < 4 ∨
      pre.length + (4 + e.data.length) > (pre ++ e.encode ++ post).length) := by
    rw [List.length_append, List.length_append]
    omega
  have hat : (pre ++ e.encode ++ post)[pre.length + 2]? = some (.ofNat (4 + e.data.length)) := by
    refine @getElem?_of_append _ _ (pre ++ e.sig) (0x01 :: (e.data ++ post)) _ _ ?_ ?_
    · simp [Entry.encode]
    · rw [List.length_append, hsig]
  have hsigAt : slice (pre ++ e.encode ++ post) pre.length 2 = some e.sig := by
    refine @slice_of_append _ _ pre e.sig
      ([.ofNat (4 + e.data.length), 0x01] ++ e.data ++ post) _ _ ?_ rfl hsig.symm
    simp only [Entry.encode, List.append_assoc]
  have hdataAt : sliceRange (pre ++ e.encode ++ post) (pre.length + 4)
      (pre.length + (4 + e.data.length)) = some e.data := by
    refine @sliceRange_of_append _ _ (pre ++ e.sig ++ [.ofNat (4 + e.data.length), 0x01]) e.data post
      _ _ ?_ ?_ (by omega)
    · simp only [Entry.encode, List.append_assoc]
    · simp only [List.length_append, hsig, List.length_cons, List.length_nil]
  have hend : pre.length + (4 + e.data.length) = (pre ++ e.encode).length := by
    rw [List.length_append, hencode]
  rw [RrParser.feedFrom, if_pos hin, hat, unwrap, ok_bind, hlen, dif_neg hwhole, hsigAt, unwrap,
    ok_bind, hdataAt, unwrap, ok_bind, if_neg e.sig_ne_sigSt, continuation_entry, hend]
  rfl

theorem feedFrom_ends {rest : List UInt8} (h : Ends rest) (pre : List UInt8) (parser : RrParser)
    (next : Option Continuation) :
    RrParser.feedFrom (pre ++ rest) parser next pre.length = .ok (parser, next) := by
  rw [RrParser.feedFrom]
  cases h with
  | short hlen =>
    apply if_neg
    rw [List.length_append]
    omega
  | zeros n =>
    by_cases hin : pre.length + 4 ≤ (pre ++ List.replicate n 0).length
    · have hlen : (pre ++ List.replicate n (0 : UInt8))[pre.length + 2]? = some 0 := by
        rw [List.length_append, List.length_replicate] at hin
        rw [List.getElem?_append_right (by omega)]
        exact List.getElem?_replicate_of_lt (by omega)
      have hzero : (0 : UInt8).toNat < 4 ∨
          pre.length + (0 : UInt8).toNat > (pre ++ List.replicate n (0 : UInt8)).length :=
        .inl (by decide)
      rw [if_pos hin, hlen, unwrap, ok_bind, dif_pos hzero]
      rfl
    · exact if_neg hin
  | terminated rest =>
    have hin : pre.length + 4 ≤ (pre ++ (sigSt ++ [0x04, 0x01] ++ rest)).length := by
      simp [sigSt]
    have hlen : (pre ++ (sigSt ++ [0x04, 0x01] ++ rest))[pre.length + 2]? = some 0x04 :=
      @getElem?_of_append _ _ (pre ++ sigSt) (0x01 :: rest) _ _ (by simp) (by simp [sigSt])
    have hwhole : ¬((0x04 : UInt8).toNat < 4 ∨
        pre.length + (0x04 : UInt8).toNat > (pre ++ (sigSt ++ [0x04, 0x01] ++ rest)).length) := by
      have hfour : (0x04 : UInt8).toNat = 4 := rfl
      omega
    have hsig : slice (pre ++ (sigSt ++ [0x04, 0x01] ++ rest)) pre.length 2 = some sigSt :=
      @slice_of_append _ _ pre sigSt ([0x04, 0x01] ++ rest) _ _ (by simp) rfl rfl
    have hdata : sliceRange (pre ++ (sigSt ++ [0x04, 0x01] ++ rest)) (pre.length + 4)
        (pre.length + (0x04 : UInt8).toNat) = some [] :=
      @sliceRange_of_append _ _ (pre ++ sigSt ++ [0x04, 0x01]) [] rest _ _ (by simp) (by simp [sigSt])
        rfl
    rw [if_pos hin, hlen, unwrap, ok_bind, dif_neg hwhole, hsig, unwrap, ok_bind, hdata, unwrap,
      ok_bind]
    exact if_pos rfl

theorem getLast_pointer (e : Entry) (entries : List Entry) (next : Option Continuation) :
    ((e :: entries).filterMap Entry.pointer).getLast?.or next =
      (entries.filterMap Entry.pointer).getLast?.or (e.pointer.or next) := by
  cases hpointer : e.pointer with
  | none =>
    rw [List.filterMap_cons_none hpointer]
    rfl
  | some area =>
    rw [List.filterMap_cons_some hpointer, List.getLast?_cons]
    cases (entries.filterMap Entry.pointer).getLast? <;> rfl

/-- The entries of an area are gathered, and the last pointer among them is kept. -/
theorem feedFrom_entries {rest : List UInt8} (hends : Ends rest) (entries : List Entry)
    (pre : List UInt8) {parser : RrParser} (hknown : Known parser) (next : Option Continuation) :
    ∃ parser', RrParser.feedFrom (pre ++ (entries.flatMap Entry.encode ++ rest)) parser next
        pre.length = .ok (parser', (entries.filterMap Entry.pointer).getLast?.or next) ∧
      Gathers parser entries parser' ∧ Known parser' := by
  induction entries generalizing pre parser next with
  | nil => exact ⟨parser, feedFrom_ends hends pre parser next, .refl parser, hknown⟩
  | cons e entries ih =>
    obtain ⟨middle, hentry, hgathers, hmiddle⟩ := entry_gathers e hknown
    obtain ⟨parser', hrest, hgathers', hknown'⟩ := ih (pre ++ e.encode) hmiddle (e.pointer.or next)
    refine ⟨parser', ?_, hgathers.append hgathers', hknown'⟩
    have hsplit : pre ++ ((e :: entries).flatMap Entry.encode ++ rest) =
        pre ++ e.encode ++ (entries.flatMap Entry.encode ++ rest) := by
      simp only [List.flatMap_cons, List.append_assoc]
    rw [hsplit, feedFrom_entry, hentry, ok_bind, hrest, getLast_pointer]

theorem feed_area (area : Area) {parser : RrParser} (hknown : Known parser) :
    ∃ parser', parser.feed area.encode = .ok (parser', area.pointers.getLast?) ∧
      Gathers parser area.entries parser' ∧ Known parser' := by
  obtain ⟨parser', hfeed, hgathers, hknown'⟩ := feedFrom_entries area.ends area.entries [] hknown none
  rw [Option.or_none] at hfeed
  exact ⟨parser', hfeed, hgathers, hknown'⟩

/-- Areas in order, each of which but the last points to the next: a continuation area
of at most a block, in the volume. -/
inductive Linked (vol : Volume) : Area → List Area → Prop
  | last {area : Area} (hlast : area.pointers = []) : Linked vol area []
  | next {area next : Area} {rest : List Area} {ce : Continuation} (hce : area.pointers = [ce])
      (hlen : ce.len = next.encode.length) (hpos : 0 < ce.len) (hblock : ce.len ≤ vol.blockSize)
      (hplace : slice vol.src.content (ce.block * vol.blockSize + ce.offset) ce.len =
        some next.encode)
      (hrest : Linked vol next rest) : Linked vol area (next :: rest)

theorem readContinuation_of_slice {vol : Volume} {ce : Continuation} {area : List UInt8}
    (h : slice vol.src.content (ce.block * vol.blockSize + ce.offset) ce.len = some area) :
    readContinuation vol ce = .ok area := by
  have hin := (slice_eq_some.mp h).1
  have hlt := vol.src.length_lt
  have hblock : u64 (ce.block * vol.blockSize) = .ok (ce.block * vol.blockSize) :=
    fits_eq_ok.mpr ⟨by omega, rfl⟩
  have hat : u64 (ce.block * vol.blockSize + ce.offset) = .ok (ce.block * vol.blockSize + ce.offset) :=
    fits_eq_ok.mpr ⟨by omega, rfl⟩
  have hstop : u64 (ce.block * vol.blockSize + ce.offset + ce.len) =
      .ok (ce.block * vol.blockSize + ce.offset + ce.len) := fits_eq_ok.mpr ⟨by omega, rfl⟩
  have hinside : ¬ce.block * vol.blockSize + ce.offset + ce.len > vol.src.len := not_lt.mpr hin
  unfold readContinuation
  rw [hblock, lift_ok_bind, hat, lift_ok_bind, hstop, lift_ok_bind, if_neg hinside]
  exact Source.readAt_eq_ok.mpr h

/-- An area is taken in, with the areas that it leads to. -/
theorem parseContinuations_linked {vol : Volume} {area : Area} {rest : List Area}
    (h : Linked vol area rest) {left : ℕ} (hleft : rest.length ≤ left) {parser : RrParser}
    (hknown : Known parser) :
    ∃ parser', (do
        let (parser, next) ← parser.feed area.encode
        parseContinuations vol parser next left) = .ok parser' ∧
      Gathers parser ((area :: rest).flatMap Area.entries) parser' ∧ Known parser' := by
  induction h generalizing left parser with
  | @last area hlast =>
    obtain ⟨parser', hfeed, hgathers, hknown'⟩ := feed_area area hknown
    refine ⟨parser', ?_, ?_, hknown'⟩
    · rw [hfeed, ok_bind, hlast]
      simp only [List.getLast?_nil, parseContinuations]
      rfl
    · rwa [List.flatMap_singleton]
  | @next area next rest ce hce hlen hpos hblock hplace hrest ih =>
    obtain ⟨middle, hfeed, hgathers, hmiddle⟩ := feed_area area hknown
    obtain ⟨left, rfl⟩ : ∃ n, left = n + 1 := Nat.exists_eq_succ_of_ne_zero (by
      rw [List.length_cons] at hleft
      omega)
    obtain ⟨parser', hmore, hgathers', hknown'⟩ := ih (Nat.le_of_succ_le_succ hleft) hmiddle
    refine ⟨parser', ?_, ?_, hknown'⟩
    · have hsize : ¬(ce.len = 0 ∨ ce.len > vol.blockSize) := by omega
      rw [hfeed, ok_bind, hce]
      dsimp only [List.getLast?_singleton]
      rw [parseContinuations, if_neg hsize, readContinuation_of_slice hplace]
      exact hmore
    · rw [List.flatMap_cons]
      exact hgathers.append hgathers'

/-- A name cut into `NM` entries, and a target cut into the components of `SL` entries,
are what the entries of the areas are parsed to. -/
theorem parseRockRidge_split {vol : Volume} {record : Area} {areas : List Area} {name : Str}
    {target : Target} (hlinked : Linked vol record areas) (hmax : areas.length ≤ maxContinuations)
    (hne : name ≠ []) (hutf8 : isUtf8 name = true)
    (hname : ((record :: areas).flatMap Area.entries).flatMap Entry.namePart = name)
    (htarget : target.CutInto (((record :: areas).flatMap Area.entries).flatMap Entry.pieces)) :
    ∃ info, parseRockRidge vol record.encode = .ok info ∧ info.name = some name ∧
      info.symlinkTarget = some target.text := by
  have hstart : Known .default := ⟨fun h => absurd rfl h, fun h => absurd rfl h⟩
  obtain ⟨parser, hparse, hgathers, hknown⟩ := parseContinuations_linked hlinked hmax hstart
  have hparsed : parser.name = name := hgathers.name.trans hname
  have hsl : parser.sl = target.text :=
    (Prod.ext_iff.mp (hgathers.target.trans (foldl_target htarget))).1
  have hhaveNm : parser.haveNm = true := hknown.name (hparsed ▸ hne)
  have hhaveSl : parser.haveSl = true := hknown.target (hsl ▸ target.text_ne)
  have hfrom : fromUtf8 name = some name := if_pos hutf8
  refine ⟨parser.finish, ?_, ?_, ?_⟩
  · unfold parseRockRidge
    rw [← bind_assoc, lift_self, hparse]
    rfl
  · simp [RrParser.finish, hhaveNm, hhaveSl, hparsed, hfrom, hne]
  · simp [RrParser.finish, hhaveSl, hsl]

/-- A name cut inside a character, and a target cut behind its root and inside a
component, over a record and two continuation areas. -/
def splitRecord : Area where
  entries := [.nm true [0x61] (by decide), .ce ⟨0, 8, 44⟩ (by decide) (by decide) (by decide)]
  rest := [0x00]
  ends := .zeros 1

def splitFirst : Area where
  entries := [.ce ⟨1, 0, 18⟩ (by decide) (by decide) (by decide), .nm true [0xC3] (by decide),
    .sl true [.root, .part [0x62] true] (by decide)]
  rest := []
  ends := .zeros 0

def splitSecond : Area where
  entries := [.nm false [0xA9] (by decide),
    .sl false [.part [] true, .part [0x63] false, .parent] (by decide)]
  rest := []
  ends := .zeros 0

def splitContent : List UInt8 :=
  List.replicate 8 0 ++ splitFirst.encode ++ List.replicate 12 0 ++ splitSecond.encode

theorem splitContent_length : splitContent.length < 2 ^ 64 := by decide

theorem splitBlock_pos : 0 < 64 := by decide

def splitVolume : Volume :=
  ⟨⟨splitContent, splitContent_length⟩, 64, splitBlock_pos, true, 0, false, none⟩

/-- `/bc/..` -/
def splitTarget : Target where
  root := true
  components := [.name ([[0x62], [], [0x63]] : List (List UInt8)).flatten, .parent]
  nonempty := .inl rfl
  names := by simp

theorem splitVolume_linked : Linked splitVolume splitRecord [splitFirst, splitSecond] := by
  have hfirst : slice splitVolume.src.content (0 * splitVolume.blockSize + 8) 44 =
      some splitFirst.encode := by decide
  have hsecond : slice splitVolume.src.content (1 * splitVolume.blockSize + 0) 18 =
      some splitSecond.encode := by decide
  refine .next rfl rfl (by decide) (by decide) hfirst ?_
  exact .next rfl rfl (by decide) (by decide) hsecond (.last rfl)

theorem splitTarget_cut :
    splitTarget.CutInto [.root, .part [0x62] true, .part [] true, .part [0x63] false, .parent] :=
  ⟨[cutName [[0x62], [], [0x63]], [.parent]],
    .cons (.name (List.cons_ne_nil _ _)) (.cons .parent .nil), rfl⟩

theorem parseRockRidge_split_twoAreas :
    ∃ info, parseRockRidge splitVolume splitRecord.encode = .ok info ∧
      info.name = some [0x61, 0xC3, 0xA9] ∧
      info.symlinkTarget = some [0x2F, 0x62, 0x63, 0x2F, 0x2E, 0x2E] :=
  parseRockRidge_split splitVolume_linked (by decide) (List.cons_ne_nil _ _) (by decide) rfl
    splitTarget_cut

end Lamfold.RockRidge
