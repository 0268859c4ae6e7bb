import LockOrder.StringTable
import LockOrder.Stack.Basic

/-!
# Stack tables

A stack table holds the file names and the function names that resolved frames refer to. The
two are independent: a file index never refers to a function.

## Main definitions

* `StackTable` — the two string tables
* `SourceLine` — a frame as a symbolizer gives it, by names
* `StackTable.intern`, `StackTable.internAll` — frames from names
* `StackTable.frameText`, `StackTable.stackText` — frames as text
* `StackTable.check` — whether a frame stays inside both tables
* `baseName` — the last component of a path
-/

namespace LockOrder

/-- The file and function names of a set of stacks. -/
structure StackTable where
  /-- The file names. -/
  files : StringTable
  /-- The function names. -/
  funcs : StringTable
deriving DecidableEq, Repr, Inhabited

/-- A frame by names, as a symbolizer gives it. -/
structure SourceLine where
  /-- The function. -/
  func : String
  /-- The path of the file. -/
  file : String
  /-- The line in the file. -/
  line : Nat
deriving DecidableEq, Repr, Inhabited

/-- The last component of a path, trailing slashes aside; a path of slashes alone is its own
last component. -/
def baseName (path : String) : String :=
  let base := ((path.toList.reverse.dropWhile (· = '/')).takeWhile (· ≠ '/')).reverse
  if base.isEmpty then path else String.ofList base

namespace StackTable

/-- The table without names. -/
def empty : StackTable := ⟨.empty, .empty⟩

/-- The frame of a source line. Its file is interned before its function. -/
def intern (t : StackTable) (l : SourceLine) : Pos × StackTable :=
  let (file, files) := t.files.add l.file
  let (func, funcs) := t.funcs.add l.func
  (.resolved file func l.line, ⟨files, funcs⟩)

/-- The frames of source lines in order. -/
def internAll (t : StackTable) : List SourceLine → List Pos × StackTable
  | [] => ([], t)
  | l :: ls =>
    let (pos, t) := t.intern l
    let (rest, t) := internAll t ls
    (pos :: rest, t)

/-- The stack that a symbolizer's lines describe, innermost first. -/
def stackOfLines (t : StackTable) (ls : List SourceLine) : Stack × StackTable :=
  let (frames, t) := t.internAll ls
  (⟨frames⟩, t)

/-- The frame of a source line, or the unresolved frame of a text. -/
def internFrame (t : StackTable) : SourceLine ⊕ String → Pos × StackTable
  | .inl l => t.intern l
  | .inr text => (.unresolved text, t)

/-- The stack of a list of frames by names or texts, interned in order. -/
def stackOfFrames (t : StackTable) : List (SourceLine ⊕ String) → Stack × StackTable
  | [] => (⟨[]⟩, t)
  | f :: fs =>
    let (pos, t) := t.internFrame f
    let (rest, t) := stackOfFrames t fs
    (⟨pos :: rest.frames⟩, t)

/-- The function name of a resolved frame. -/
def funcName? (t : StackTable) : Pos → Except Fault (Option String)
  | .resolved _ func _ => some <$> t.funcs.get func
  | .unresolved _ => .ok none

/-- A frame on one line: the function, the last component of the file and the line, or the
text of an unresolved frame. -/
def frameText (t : StackTable) : Pos → Except Fault String
  | .resolved file func line => do
    let file ← t.files.get file
    let func ← t.funcs.get func
    return func ++ " " ++ baseName file ++ ":" ++ Text.decimal line
  | .unresolved text => .ok text

/-- A stack, one frame to a line. -/
def stackText (t : StackTable) (s : Stack) : Except Fault String := do
  return "\n".intercalate (← s.frames.mapM t.frameText)

/-- Which index of a frame lies outside its table. -/
inductive PosFlaw where
  /-- The file index, and the number of files. -/
  | file (index files : Nat)
  /-- The function index, and the number of functions. -/
  | func (index funcs : Nat)
deriving DecidableEq, Repr

/-- The message of a frame that points outside its tables. -/
def PosFlaw.message : PosFlaw → String
  | .file index files => s!"file index {index} out of range ({files} files)"
  | .func index funcs => s!"func index {index} out of range ({funcs} funcs)"

/-- Checks that a frame points inside both tables; the file comes first. -/
def check (t : StackTable) : Pos → Except PosFlaw Unit
  | .resolved file func _ =>
    if t.files.size ≤ file then .error (.file file t.files.size)
    else if t.funcs.size ≤ func then .error (.func func t.funcs.size)
    else .ok ()
  | .unresolved _ => .ok ()

end StackTable

end LockOrder
