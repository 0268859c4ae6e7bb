import LockOrder.Position

/-!
# String tables

Stacks refer to file and function names by index into a *string table*: an append-only list of
strings. Adding a string that the table already holds gives the index it has; adding a new one
appends it. A table read from outside may hold a string more than once, and then the last
occurrence counts.

## Main definitions

* `StringTable` — the table
* `StringTable.indexOf?` — where a string stands
* `StringTable.add` — the index of a string, appended if it is new
* `StringTable.get` — the string at an index
-/

namespace LockOrder

/-- An append-only list of strings addressed by position. -/
structure StringTable where
  /-- The strings in index order. -/
  strings : Array String
deriving DecidableEq, Repr, Inhabited

namespace StringTable

/-- The table without strings. -/
def empty : StringTable := ⟨#[]⟩

/-- The number of strings. -/
def size (t : StringTable) : Nat := t.strings.size

/-- The index under which `t` holds `s`. -/
def indexOf? (t : StringTable) (s : String) : Option Nat := lastIndex? s t.strings.toList

/-- The index of `s`, and the table with `s` in it. -/
def add (t : StringTable) (s : String) : Nat × StringTable :=
  match t.indexOf? s with
  | some i => (i, t)
  | none => (t.size, ⟨t.strings.push s⟩)

/-- The string at index `i`. An index that no `add` has given is a fault. -/
def get (t : StringTable) (i : Nat) : Except Fault String :=
  match t.strings[i]? with
  | some s => .ok s
  | none => .error (.stringIndex t.size i)

end StringTable

end LockOrder
