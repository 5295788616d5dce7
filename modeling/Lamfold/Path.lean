import Lamfold.Substrate
import Lamfold.Utf8

/-!
Path-based access over a frontend: a path becomes a node by walking its
components through `lookup`, following symbolic links on the way.
-/
namespace Lamfold.Path

open Effects Bytes Utf8

/-- Maximum symlinks followed while resolving one path. -/
def maxSymlinks : ℕ := 16

def slash : UInt8 := 0x2F

def dot : Str := [0x2E]

def dotDot : Str := [0x2E, 0x2E]

/-- The components of a path: its pieces between slashes, without empty ones
and `.`. -/
def components (path : Str) : List Str :=
  (path.splitOn slash).filter fun c => !c.isEmpty && c != dot

/-- Push the components of `path`; the head of the list is the top of the stack. -/
def pushComponents (path : Str) (stack : List Str) : List Str := components path ++ stack

section Resolve

variable {σ : Type} (fs : FoldFrontend σ)

/-- One component looked up in `node`. -/
def lookupChild (node : NodeId) (comp : Str) : Method σ NodeId := do
  if comp = dotDot then throw (.err (.invalidPath "'..' not supported"))
  let child ← fs.lookup node comp
  okOr child .notFound

/-- The target of the link `child`, as a string. -/
def linkTarget (child : NodeId) : Method σ Str := do
  let target ← fs.readLink child
  let target ← okOr target (.corrupt "symlink without a target")
  okOr (fromUtf8 target) (.invalidPath "non-UTF-8 symlink")

/-- An absolute target restarts from the root, a relative one from the
directory the link lives in. -/
def linkBase (node : NodeId) (target : Str) : Method σ NodeId := do
  if target.head? = some slash then return fs.root (← get) else return node

/-- The `while let` loop of `resolve`. It ends with the node reached and the
number of links followed; either fewer links remain or the stack is shorter. -/
def resolveLoop (node : NodeId) (pending : List Str) (links : ℕ) : Method σ (NodeId × ℕ) :=
  match pending with
  | [] => pure (node, links)
  | comp :: pending => do
    let child ← lookupChild fs node comp
    let md ← fs.metadata child
    if md.kind = .symlink then
      if links + 1 > maxSymlinks then throw (.err (.invalidPath "too many symlinks"))
      else do
        let target ← linkTarget fs child
        let base ← linkBase fs node target
        resolveLoop base (pushComponents target pending) (links + 1)
    else resolveLoop child pending links
  termination_by (maxSymlinks - links, pending.length)

/-- Resolve `path` from the node `start` with `links` links followed already. -/
def resolveFrom (start : NodeId) (path : Str) (links : ℕ) : Method σ (NodeId × ℕ) :=
  resolveLoop fs start (pushComponents path []) links

def resolve (path : Str) : Method σ NodeId := do
  let (node, _) ← resolveFrom fs (fs.root (← get)) path 0
  return node

/-- The `while` loop of `read_path`: `done` of `total` bytes are in `out` so far. -/
def readLoop (node : NodeId) (total done : ℕ) (out : List UInt8) : Method σ (List UInt8) :=
  if done < total then do
    let (n, window) ← fs.readAt node done (out.drop done)
    let out := overwrite out done window
    if n = 0 then return out.take done else readLoop node total (done + n) out
  else return out.take done
  termination_by total - done

/-- What `read_path` does with the node it resolved. -/
def readNode (node : NodeId) : Method σ (List UInt8) := do
  let md ← fs.metadata node
  if md.kind = .directory then throw (.err .isDirectory)
  let total ← checkedFullReadLen md.size
  readLoop fs node total 0 (List.replicate total 0)

/-- Read a whole file by path, bounded by the read cap. -/
def readPath (path : Str) : Method σ (List UInt8) := do
  let node ← resolve fs path
  readNode fs node

def readDirPath (path : Str) : Method σ (List DirEntry) := do
  let node ← resolve fs path
  fs.readDir node

/-- The metadata of the node the path leads to. -/
def metadataPath (path : Str) : Method σ Metadata := do
  let node ← resolve fs path
  fs.metadata node

end Resolve

end Lamfold.Path
