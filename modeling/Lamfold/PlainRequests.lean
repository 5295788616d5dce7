import Lamfold.Flock
import Lamfold.Requests

/-!
What the romfs and cpio frontends ask of their source. An archive is asked for once, as a
whole; romfs asks for windows of headers, and for file data as the caller does.
-/
namespace Lamfold

open Effects Bytes Utf8

namespace Romfs

variable {limit : ℕ} (src : Source)

/-- A window of a header is no longer than the longest name and the fields before it. -/
theorem asks_readHeader (off : ℕ) (hlimit : maxBootFileBytes ≤ limit) :
    Asks limit (readHeader src off) (readHeader src off) := by
  have hwindow : min (16 + maxName) (src.len - off) ≤ limit :=
    (Nat.min_le_left _ _).trans (Nat.le_trans (by decide) hlimit)
  refine .ite (fun _ => .of _) fun _ => ?_
  refine .bind (asks_source src off hwindow) fun win _ => ?_
  refine .bind (.of _) fun nextRaw _ => .bind (.of _) fun info _ => .bind (.of _) fun size _ => ?_
  exact .bind (.of _) fun nul _ => .bind (.of _) fun dataOff _ => .pure _

theorem asks_followLinks (hops off : ℕ) (hlimit : maxBootFileBytes ≤ limit) :
    Asks limit (followLinks src hops off) (followLinks src hops off) := by
  induction hops generalizing off with
  | zero => exact .of _
  | succ hops ih =>
    refine .bind (asks_readHeader src off hlimit) fun h _ => ?_
    exact .ite (fun _ => .pure _) fun _ => ih h.info

theorem asks_resolvedHeader (off : ℕ) (hlimit : maxBootFileBytes ≤ limit) :
    Asks limit (resolvedHeader src off) (resolvedHeader src off) :=
  asks_followLinks src _ off hlimit

theorem asks_probe : Asks maxBootFileBytes (probe src) (probe src) := by
  refine .ite (fun _ => .pure _) fun _ => ?_
  exact .bind (asks_source src 0 (by decide)) fun _ _ => .pure _

theorem asks_mount : Asks maxBootFileBytes (mount src) (mount src) := by
  have hwindow : min (16 + maxName) src.len ≤ maxBootFileBytes :=
    (Nat.min_le_left _ _).trans (by decide)
  refine .ite (fun _ => .of _) fun _ => ?_
  refine .bind (asks_source src 0 hwindow) fun head _ => ?_
  refine .ite (fun _ => .of _) fun _ => ?_
  exact .bind (.of _) fun nul _ => .pure _

/-- The chain of a directory asks for its headers. -/
theorem asks_readChain (bound o : ℕ) (hlimit : maxBootFileBytes ≤ limit) :
    Asks limit (readChain src bound o) (readChain src bound o) := by
  induction bound generalizing o with
  | zero => exact .pure _
  | succ bound ih =>
    refine .ite (fun _ => .pure _) fun _ => ?_
    refine .bind (asks_readHeader src o hlimit) fun h _ => ?_
    refine .ite (fun _ => ?_) fun _ => ih h.nextOff
    refine .bind (asks_resolvedHeader src o hlimit) fun target _ => ?_
    exact .bind (ih h.nextOff) fun rest _ => .pure _

variable (r : Romfs)

theorem asks_readDir (dir : NodeId) :
    Asks maxBootFileBytes (readDir r dir) (readDir r dir) := by
  refine .bind (asks_resolvedHeader r.src dir (le_refl _)) fun head _ => ?_
  exact .ite (fun _ => .of _) fun _ => asks_readChain r.src _ _ (le_refl _)

/-- Data is asked for into the caller's buffer. -/
theorem asks_readAt (node : NodeId) (off : ℕ) (buf : List UInt8) :
    Asks (max maxBootFileBytes buf.length) (readAt r node off buf)
      (readAt r node off buf) := by
  refine .bind (asks_resolvedHeader r.src node (Nat.le_max_left _ _)) fun found _ => ?_
  refine .ite (fun _ => .of _) fun _ => .ite (fun _ => .pure _) fun _ => ?_
  refine .bind (.of _) fun disk _ => ?_
  refine .bind (asks_source r.src disk ?_) fun data _ => .pure _
  exact (Nat.min_le_left _ _).trans (Nat.le_max_right _ _)

/-- A target is checked against the cap before it is asked for. -/
theorem asks_readLink (node : NodeId) :
    Asks maxBootFileBytes (readLink r node) (readLink r node) := by
  refine .bind (asks_resolvedHeader r.src node (le_refl _)) fun found _ => ?_
  refine .ite (fun _ => .pure _) fun _ => ?_
  refine .bind (.of _) fun len hlen => ?_
  obtain ⟨hle, rfl⟩ := checkedFullReadLen_eq_ok.mp hlen
  exact .bind (asks_source r.src _ hle) fun target _ => .pure _

/-- The methods, recorded. -/
def recordedMethods : FoldFrontendIn (StateM (List Request)) Romfs := frontendIn (m := Asking)

theorem asks_methods : recordedMethods.Asks (fun c r => r.length ≤ c.cap) frontend r where
  root := rfl
  lookup dir _ := .get_bind <| .keep
    ((Tracks.bind (asks_readDir r dir) fun _ _ => .pure _).mono
      (Request.Within.mono (Nat.le_max_left _ _))) _
  readDir dir := .get_bind <| .keep
    ((asks_readDir r dir).mono (Request.Within.mono (Nat.le_max_left _ _))) _
  metadata node := .get_bind <| .keep
    (.bind (asks_resolvedHeader r.src node (Nat.le_max_left _ _)) fun _ _ => .pure _) _
  readAt node off buf := .get_bind <| .keep (asks_readAt r node off buf) _
  readLink node := .get_bind <| .keep
    ((asks_readLink r node).mono (Request.Within.mono (Nat.le_max_left _ _))) _

def opening : Opening Romfs Unit := ⟨probe, mount, fun _ => frontend⟩

def recorded : Recorded opening where
  probe := probe
  mount := mount
  methods _ := recordedMethods
  probe_eq src := (asks_probe src).result
  mount_eq src := (asks_mount src).result
  methods_eq _ r := (asks_methods r).mono fun _ _ _ => trivial

theorem capped : recorded.Capped src :=
  .intro (P := fun _ => True) (asks_probe src).within (asks_mount src).within (fun _ => trivial)
    (fun _ => frontend_keeps _) fun _ r _ => asks_methods r

end Romfs

namespace Cpio

def recordedMethods : FoldFrontendIn (StateM (List Request)) Cpio := frontendIn

variable (readers : Readers) (src : Source)

theorem asks_probe : Asks maxBootFileBytes (probe src) (probe src) := by
  refine .ite (fun _ => .pure _) fun _ => ?_
  exact .bind (asks_source src 0 (by decide)) fun _ _ => .pure _

theorem asks_mount : Asks maxBootFileBytes (mount readers src) (mount readers src) := by
  refine .bind (.of _) fun len hlen => ?_
  obtain ⟨hle, rfl⟩ := checkedFullReadLen_eq_ok.mp hlen
  refine .bind (asks_source src 0 hle) fun archive _ => ?_
  refine .ite (fun _ => ?_) fun _ => .bind (.of _) fun nodes _ => .pure _
  exact .bind (.of _) fun budget _ => .bind (.of _) fun s _ => .pure _

/-- The archive is in memory: nothing is asked for. -/
theorem asks_methods (P : Call → Request → Prop) (c : Cpio) :
    recordedMethods.Asks P frontend c where
  root := rfl
  lookup _ _ := .get_bind (.lift _ c)
  readDir _ := .get_bind (.lift _ c)
  metadata _ := .get_bind (.lift _ c)
  readAt _ _ _ := .get_bind (.lift _ c)
  readLink _ := .get_bind (.lift _ c)

def opening : Opening Cpio Unit := ⟨probe, mount readers, fun _ => frontend⟩

def recorded : Recorded (opening readers) where
  probe := probe
  mount := mount readers
  methods _ := recordedMethods
  probe_eq src := (asks_probe src).result
  mount_eq src := (asks_mount readers src).result
  methods_eq _ c := asks_methods _ c

theorem capped : (recorded readers).Capped src :=
  .intro (P := fun _ => True) (asks_probe src).within (asks_mount readers src).within
    (fun _ => trivial) (fun _ => frontend_keeps _) fun _ c _ => asks_methods _ c

end Cpio

end Lamfold
