import Lamfold.Substrate
import Lamfold.Utf8

/-!
Rock Ridge. The System Use area of a directory record, and the continuation areas
it leads to, hold tagged entries with what plain ISO 9660 cannot record: the real
name, the target of a symlink, the parameters of a compressed file.
-/
namespace Lamfold.RockRidge

open Effects Bytes Utf8

/-- The parameters of a `ZF` entry: the decompressed length, and the logarithm of
the size of a compression block. -/
structure Zisofs where
  uncompressedSize : ℕ
  blockSizeLog2 : ℕ
  deriving DecidableEq, Repr

/-- What the entries of a record add to it. -/
structure RrInfo where
  name : Option Str
  mode : Option ℕ
  symlinkTarget : Option (List UInt8)
  zisofs : Option Zisofs
  deriving DecidableEq, Repr

/-- Where the entries of a record go on: block, offset in it, and length. -/
structure Continuation where
  block : ℕ
  offset : ℕ
  len : ℕ
  deriving DecidableEq, Repr

/-- The entries collected so far. -/
structure RrParser where
  info : RrInfo
  name : List UInt8
  haveNm : Bool
  sl : List UInt8
  haveSl : Bool
  slContinues : Bool
  deriving DecidableEq, Repr

namespace RrParser

def default : RrParser := ⟨⟨none, none, none, none⟩, [], false, [], false, false⟩

end RrParser

def sigSp : List UInt8 := [0x53, 0x50]

def sigNm : List UInt8 := [0x4E, 0x4D]

def sigPx : List UInt8 := [0x50, 0x58]

def sigSl : List UInt8 := [0x53, 0x4C]

def sigZf : List UInt8 := [0x5A, 0x46]

def sigCe : List UInt8 := [0x43, 0x45]

def sigSt : List UInt8 := [0x53, 0x54]

/-- `pz`, the algorithm of a `ZF` entry. -/
def zisofsAlgorithm : List UInt8 := [0x70, 0x7A]

/-- `u32::from_le_bytes` of the four bytes at index `o`. -/
def le32 (data : List UInt8) (o : ℕ) : Outcome ℕ := do
  let field ← unwrap (slice data o 4)
  return leNat field

/-- The skip length of the `SP` entry of an area, from index `p` on. -/
def detectSpFrom (su : List UInt8) (p : ℕ) : Outcome (Option ℕ) :=
  if p + 4 ≤ su.length then do
    let len ← unwrap su[p + 2]?
    if _ : len.toNat < 4 ∨ p + len.toNat > su.length then return none
    else do
      let sig ← unwrap (slice su p 2)
      if sig = sigSp ∧ len.toNat ≥ 7 then do
        let check ← unwrap (slice su (p + 4) 2)
        if check = [0xBE, 0xEF] then do
          let skip ← unwrap su[p + 6]?
          return some skip.toNat
        else detectSpFrom su (p + len.toNat)
      else detectSpFrom su (p + len.toNat)
  else .ok none
  termination_by su.length - p
  decreasing_by all_goals omega

def detectSp (su : List UInt8) : Outcome (Option ℕ) := detectSpFrom su 0

/-- What a symlink target becomes with one more component. -/
def slComponent (flags : UInt8) (content out : List UInt8) (continues : Bool) : List UInt8 :=
  if flags &&& 0x08 ≠ 0 then if out = [] then [0x2F] else out
  else
    -- a component starts after a separator, unless the one before goes on in it
    let out := if ¬continues ∧ out ≠ [] ∧ out.getLast? ≠ some 0x2F then out ++ [0x2F] else out
    if flags &&& 0x02 ≠ 0 then out ++ [0x2E]
    else if flags &&& 0x04 ≠ 0 then out ++ [0x2E, 0x2E]
    else out ++ content

/-- The components of an `SL` entry, after the target `out` so far. -/
def parseSlComponents (comp out : List UInt8) (continues : Bool) : Outcome (List UInt8 × Bool) :=
  if 2 ≤ comp.length then do
    let flags ← unwrap comp[0]?
    let clen ← unwrap comp[1]?
    if 2 + clen.toNat > comp.length then return (out, continues)
    else do
      let content ← unwrap (slice comp 2 clen.toNat)
      parseSlComponents (comp.drop (2 + clen.toNat)) (slComponent flags content out continues)
        (flags &&& 0x01 ≠ 0)
  else .ok (out, continues)
  termination_by comp.length
  decreasing_by
    rw [List.length_drop]
    omega

namespace RrParser

/-- What one entry adds. -/
def entry (parser : RrParser) (sig data : List UInt8) : Outcome RrParser :=
  if sig = sigNm then
    match data with
    | [] => .ok parser
    | flags :: name =>
      if flags &&& 0x06 = 0 then .ok { parser with name := parser.name ++ name, haveNm := true }
      else .ok parser
  else if sig = sigPx then
    if data.length ≥ 4 then do
      let mode ← le32 data 0
      return { parser with info := { parser.info with mode := some mode } }
    else .ok parser
  else if sig = sigSl then
    match data with
    | [] => .ok { parser with haveSl := true }
    | _ :: components => do
      let (sl, slContinues) ← parseSlComponents components parser.sl parser.slContinues
      return { parser with haveSl := true, sl := sl, slContinues := slContinues }
  else if sig = sigZf then
    if data.length ≥ 8 then do
      let algorithm ← unwrap (slice data 0 2)
      if algorithm = zisofsAlgorithm then do
        let log2 ← unwrap data[3]?
        let size ← le32 data 4
        return { parser with info := { parser.info with zisofs := some ⟨size, log2.toNat⟩ } }
      else return parser
    else .ok parser
  else .ok parser

end RrParser

/-- Where a `CE` entry says that the entries go on; `next` for any other entry. -/
def continuation (sig data : List UInt8) (next : Option Continuation) :
    Outcome (Option Continuation) :=
  if sig = sigCe ∧ data.length ≥ 24 then do
    let block ← le32 data 0
    let offset ← le32 data 8
    let len ← le32 data 16
    return some ⟨block, offset, len⟩
  else .ok next

namespace RrParser

/-- The entries of an area from index `p` on. -/
def feedFrom (su : List UInt8) (parser : RrParser) (next : Option Continuation) (p : ℕ) :
    Outcome (RrParser × Option Continuation) :=
  if p + 4 ≤ su.length then do
    let len ← unwrap su[p + 2]?
    if _ : len.toNat < 4 ∨ p + len.toNat > su.length then return (parser, next)
    else do
      let sig ← unwrap (slice su p 2)
      let data ← unwrap (sliceRange su (p + 4) (p + len.toNat))
      if sig = sigSt then return (parser, next)
      else do
        let parser ← parser.entry sig data
        let next ← continuation sig data next
        feedFrom su parser next (p + len.toNat)
  else .ok (parser, next)
  termination_by su.length - p
  decreasing_by omega

/-- Parse one area, and say where the entries go on. -/
def feed (parser : RrParser) (su : List UInt8) : Outcome (RrParser × Option Continuation) :=
  feedFrom su parser none 0

def finish (parser : RrParser) : RrInfo :=
  let info :=
    if parser.haveNm then
      match fromUtf8 parser.name with
      | some s => if s ≠ [] then { parser.info with name := some s } else parser.info
      | none => parser.info
    else parser.info
  if parser.haveSl then { info with symlinkTarget := some parser.sl } else info

end RrParser

end Lamfold.RockRidge
