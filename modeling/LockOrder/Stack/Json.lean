import LockOrder.Json.Shape
import LockOrder.Json.Writer
import LockOrder.Number.Basic
import LockOrder.Stack.Table

/-!
# Stacks as JSON text

A resolved frame is written as the array of its file index, function index and line, and an
unresolved frame as its text. A string table is the array of its strings. Lists that may be
missing elsewhere are read from `null` too, as empty lists.

## Main definitions

* `Pos.json`, `Stack.json`, `StringTable.json`, `StackTable.json` — written values
* `Pos.read`, `Stack.read`, `StringTable.read`, `StackTable.read` — readers
-/

namespace LockOrder

open Json (Reader)

/-- Reads an index. -/
def readIndex : Reader Nat := Json.natural wordBound "usize"

/-- Reads a count. -/
def readCount : Reader Nat := Json.natural wordBound "u64"

/-- Reads a line number. -/
def readLine : Reader Nat := Json.natural lineBound "u32"

/-- A list of values that may be written as `null`. -/
def readNullableList {α : Type} (item : Reader α) : Reader (List α) := do
  return (← Json.nullable (Json.listOf item)).getD []

namespace Pos

/-- How messages name a frame. -/
def expected : String := "a [file, func, line] triple or an error string"

/-- A frame as JSON text. -/
def json : Pos → String
  | .resolved file func line => Json.array [Text.decimal file, Text.decimal func, Text.decimal line]
  | .unresolved text => Json.quote text

/-- Reads the element at `position` of a frame that is written as an array. -/
def readElement (position : Nat) (item : Reader Nat) : Reader Nat := do
  if ← Json.moreElements (position = 0) then item
  else Json.fail (.wrongLength position expected)

/-- Reads a frame: a string, or an array of exactly three numbers. -/
def read : Reader Pos := do
  match ← Json.skipBlanksTo with
  | 0x22 =>
    Json.advance
    return .unresolved (← Json.stringBody)
  | 0x5B =>
    Json.advance
    let file ← readElement 0 readIndex
    let func ← readElement 1 readIndex
    let line ← readElement 2 readLine
    if ← Json.moreElements false then
      Json.skipValue
      Json.fail (.wrongLength 4 expected)
    else
      Json.closeList
      return .resolved file func line
  | _ => Json.unexpected expected

end Pos

namespace Stack

/-- A stack as JSON text. -/
def json (s : Stack) : String := Json.array (s.frames.map Pos.json)

/-- Reads a stack. -/
def read : Reader Stack := do
  return ⟨← Json.listOf Pos.read⟩

/-- Reads a stack, where `null` is a stack without frames. -/
def readNullable : Reader Stack := do
  return (← Json.nullable read).getD ⟨[]⟩

end Stack

namespace StringTable

/-- A string table as JSON text. -/
def json (t : StringTable) : String := Json.array (t.strings.toList.map Json.quote)

/-- Reads a string table. -/
def read : Reader StringTable := do
  return ⟨(← Json.listOf Json.text).toArray⟩

/-- Reads a string table, where `null` is a table without strings. -/
def readNullable : Reader StringTable := do
  return (← Json.nullable read).getD .empty

end StringTable

namespace StackTable

/-- A stack table as JSON text. -/
def json (t : StackTable) : String :=
  Json.object [("Files", t.files.json), ("Funcs", t.funcs.json)]

/-- The fields of a stack table that were read. -/
structure Draft where
  /-- The file names. -/
  files : Option StringTable := none
  /-- The function names. -/
  funcs : Option StringTable := none

/-- How a stack table is read. -/
def layout : Json.Record Draft StackTable where
  title := "StackTable"
  fields := [
    ⟨"Files", fun d => d.files.isSome, fun d => do
      return { d with files := some (← StringTable.readNullable) }⟩,
    ⟨"Funcs", fun d => d.funcs.isSome, fun d => do
      return { d with funcs := some (← StringTable.readNullable) }⟩]
  start := {}
  finish d := do return ⟨← d.files, ← d.funcs⟩

/-- Reads a stack table. -/
def read : Reader StackTable := Json.record layout

end StackTable

end LockOrder
