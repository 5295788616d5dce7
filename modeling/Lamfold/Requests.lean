import Lamfold.Noted
import Lamfold.Extents
import Lamfold.Intern
import Lamfold.Runs

/-!
What is asked of the byte source. A recorded frontend reads as the frontend does and
notes every request; a request is capped when it asks for no more than the largest
whole-file read, or than the caller's buffer.
-/
namespace Lamfold

open Effects

/-- A call of `BlockSource::read_at`: the offset, and the length of the buffer. -/
structure Request where
  offset : ℕ
  length : ℕ
  deriving DecidableEq, Repr

/-- A computation that notes what it asks of the source. -/
abbrev Asking (α : Type) := Noted Request Fault α

/-- A method that notes what it asks of the source. -/
abbrev AskingMethod (σ α : Type) := NotedOp Request Fault σ α

/-- `BlockSource::read_at`, noted. -/
def ask (src : Source) (offset n : ℕ) : Asking (List UInt8) := ⟨src.fill offset n, [⟨offset, n⟩]⟩

/-- A read is noted, and the notes of a failure stay. -/
instance : Reads Asking := ⟨ask, Noted.attempt⟩

/-- A request for at most `limit` bytes. -/
def Request.Within (limit : ℕ) (r : Request) : Prop := r.length ≤ limit

theorem Request.Within.mono {limit limit' : ℕ} (hle : limit ≤ limit') (r : Request)
    (h : r.Within limit) : r.Within limit' := Nat.le_trans h hle

/-- `x` asks for at most `limit` bytes at a time, and reads as `y` does. -/
abbrev Asks {α : Type} (limit : ℕ) (x : Asking α) (y : Outcome α) : Prop :=
  Tracks (Request.Within limit) x y

abbrev AsksAt {σ α : Type} (limit : ℕ) (x : AskingMethod σ α) (y : Method σ α) (s : σ) : Prop :=
  TracksAt (Request.Within limit) x y s

theorem asks_source {limit n : ℕ} (src : Source) (offset : ℕ) (hn : n ≤ limit) :
    Asks limit (src.readAt offset n) (src.readAt offset n) := .single hn

section Extents

variable {ε : Type} (len : ε → ℕ)

/-- A window is read in pieces that are no longer than it. -/
theorem asks_readExtents {limit : ℕ} {read' : ε → ℕ → ℕ → Asking (List UInt8)}
    {read : ε → ℕ → ℕ → Outcome (List UInt8)}
    (hread : ∀ e intra n, n ≤ limit → Asks limit (read' e intra n) (read e intra n)) {want : ℕ}
    (hwant : want ≤ limit) (off : ℕ) (es : List ε) (filePos : ℕ) (out : List UInt8) :
    Asks limit (readExtents len read' off want es filePos out)
      (readExtents len read off want es filePos out) := by
  induction es generalizing filePos out with
  | nil => exact .pure out
  | cons e rest ih =>
    rw [readExtents, readExtents]
    refine .ite (fun _ => .pure out) fun _ => ?_
    refine .bind (.of _) fun extEnd _ => .bind (.of _) fun cur _ => ?_
    refine .ite (fun _ => ih extEnd out) fun _ => ?_
    refine .bind (.of _) fun intra _ => ?_
    refine .bind (hread e intra _ (by omega)) fun bytes _ => ?_
    exact ih extEnd (out ++ bytes)

end Extents

section Interning

variable {κ ι α σ : Type} [DecidableEq κ]

theorem asks_internOne {P : Request → Prop} (key : κ) (inode : ι) (t : InternTable κ ι) :
    TracksAt P (InternTable.internOne key inode) (InternTable.internOne key inode) t :=
  .get_bind (.bind (.set _ t) fun _ u _ => .pure _ u)

theorem asks_internAll {limit : ℕ} {key : α → κ} {parse' : α → Asking ι} {parse : α → Outcome ι}
    {kind : ι → FileKind} {records : List (Str × α)}
    (hparse : ∀ record ∈ records, Asks limit (parse' record.2) (parse record.2))
    (t : InternTable κ ι) :
    AsksAt limit (InternTable.internAll key parse' kind records)
      (InternTable.internAll key parse kind records) t := by
  induction records generalizing t with
  | nil => exact .pure [] t
  | cons record rest ih =>
    have hfirst := hparse record List.mem_cons_self
    have hrest := ih fun record hrecord => hparse record (List.mem_cons_of_mem _ hrecord)
    refine .bind (.keep hfirst t) fun child u _ => .get_bind ?_
    refine .bind (.set _ u) fun _ v _ => ?_
    exact .bind (hrest v) fun entries w _ => .pure _ w

end Interning

/-- The buffer that a call brings. -/
def Call.bufLen : Call → ℕ
  | .readAt _ _ buf => buf.length
  | _ => 0

/-- The longest request that a call may make. -/
def Call.cap (c : Call) : ℕ := max maxBootFileBytes c.bufLen

namespace FoldFrontendIn

variable {σ : Type}

/-- What a call asks on a volume in state `s`. -/
def requests (rec : FoldFrontendIn (StateM (List Request)) σ) (c : Call) (s : σ) : List Request :=
  match c with
  | .lookup dir name => (trace (rec.lookup dir name) s []).2
  | .readDir dir => (trace (rec.readDir dir) s []).2
  | .metadata node => (trace (rec.metadata node) s []).2
  | .readAt node off buf => (trace (rec.readAt node off buf) s []).2
  | .readLink node => (trace (rec.readLink node) s []).2

/-- From state `s`, every call runs as that of `fs`, and every request is in `P`. -/
structure Asks (P : Call → Request → Prop) (rec : FoldFrontendIn (StateM (List Request)) σ)
    (fs : FoldFrontend σ) (s : σ) : Prop where
  root : rec.root s = fs.root s
  lookup : ∀ dir name, TracksAt (P (.lookup dir name)) (rec.lookup dir name) (fs.lookup dir name) s
  readDir : ∀ dir, TracksAt (P (.readDir dir)) (rec.readDir dir) (fs.readDir dir) s
  metadata : ∀ node, TracksAt (P (.metadata node)) (rec.metadata node) (fs.metadata node) s
  readAt : ∀ node off buf,
    TracksAt (P (.readAt node off buf)) (rec.readAt node off buf) (fs.readAt node off buf) s
  readLink : ∀ node, TracksAt (P (.readLink node)) (rec.readLink node) (fs.readLink node) s

namespace Asks

variable {P : Call → Request → Prop} {rec : FoldFrontendIn (StateM (List Request)) σ}
  {fs : FoldFrontend σ} {s : σ}

theorem mono {Q : Call → Request → Prop} (h : Asks P rec fs s) (hPQ : ∀ c r, P c r → Q c r) :
    Asks Q rec fs s where
  root := h.root
  lookup dir name := (h.lookup dir name).mono (hPQ _)
  readDir dir := (h.readDir dir).mono (hPQ _)
  metadata node := (h.metadata node).mono (hPQ _)
  readAt node off buf := (h.readAt node off buf).mono (hPQ _)
  readLink node := (h.readLink node).mono (hPQ _)

theorem requests (h : Asks P rec fs s) {c : Call} {r : Request} (hr : r ∈ rec.requests c s) :
    P c r := by
  cases c with
  | lookup dir name => exact (h.lookup dir name).notes hr
  | readDir dir => exact (h.readDir dir).notes hr
  | metadata node => exact (h.metadata node).notes hr
  | readAt node off buf => exact (h.readAt node off buf).notes hr
  | readLink node => exact (h.readLink node).notes hr

end Asks

end FoldFrontendIn

/-- A frontend: how a source is recognised and opened, and its methods in any context. -/
structure Opening (σ ι : Type) where
  probe : Source → Outcome Bool
  mount : Source → Outcome σ
  methods : ι → FoldFrontend σ

/-- The frontend `fs` with its requests noted. -/
structure Recorded {σ ι : Type} (fs : Opening σ ι) where
  probe : Source → Asking Bool
  mount : Source → Asking σ
  methods : ι → FoldFrontendIn (StateM (List Request)) σ
  probe_eq : ∀ src, (probe src).result = fs.probe src
  mount_eq : ∀ src, (mount src).result = fs.mount src
  methods_eq : ∀ i s, (methods i).Asks (fun _ _ => True) (fs.methods i) s

/-- No request is for more than the cap, or the caller's buffer: those of the probe, those
of the opening, and those of any call in any run of the opened volume. -/
structure Recorded.Capped {σ ι : Type} {fs : Opening σ ι} (rec : Recorded fs) (src : Source) :
    Prop where
  probe : (rec.probe src).Within (Request.Within maxBootFileBytes)
  mount : (rec.mount src).Within (Request.Within maxBootFileBytes)
  calls : ∀ {s t}, fs.mount src = .ok s → Reaches fs.methods s t →
    ∀ i c, ∀ r ∈ (rec.methods i).requests c t, r.length ≤ c.cap

/-- Calls are capped when the states reached have what capped calls need. -/
theorem Recorded.Capped.intro {σ ι : Type} {fs : Opening σ ι} {rec : Recorded fs} {src : Source}
    {P : σ → Prop} (hprobe : (rec.probe src).Within (Request.Within maxBootFileBytes))
    (hmount : (rec.mount src).Within (Request.Within maxBootFileBytes))
    (hstart : ∀ {s}, fs.mount src = .ok s → P s) (hkeeps : ∀ i, (fs.methods i).Keeps P)
    (hcalls : ∀ i s, P s → (rec.methods i).Asks (fun c r => r.length ≤ c.cap) (fs.methods i) s) :
    rec.Capped src where
  probe := hprobe
  mount := hmount
  calls hs hrun i _ _ hr := (hcalls i _ (hrun.keeps hkeeps (hstart hs))).requests hr

end Lamfold
