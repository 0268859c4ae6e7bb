import LockOrder.Graph.Basic
import LockOrder.Stack.Json

/-!
# Lock graphs as JSON text

A graph is an object with the members `Labels`, `Edges`, `To` and `StackTable`; an edge is an
object with the member `Stacks`; a pair of stacks is an object with the members `S1`, `S2` and
`Count`. All of them must be there. The lists among them may be `null`, and so may the list of
each node in `Edges` and `To`.

## Main definitions

* `StackPair.json`, `Edge.json`, `Graph.json` — written values
* `StackPair.read`, `Edge.read`, `Graph.read` — readers
-/

namespace LockOrder

open Json (Reader)

namespace StackPair

/-- A pair of stacks as JSON text. -/
def json (p : StackPair) : String :=
  Json.object [("S1", p.first.json), ("S2", p.second.json), ("Count", Text.decimal p.count)]

/-- The fields of a pair of stacks that were read. -/
structure Draft where
  /-- Where the first lock was taken. -/
  first : Option Stack := none
  /-- Where the second lock was taken. -/
  second : Option Stack := none
  /-- How often the pair was seen. -/
  count : Option Nat := none

/-- How a pair of stacks is read. -/
def layout : Json.Record Draft StackPair where
  title := "StackPair"
  fields := [
    ⟨"S1", fun d => d.first.isSome, fun d => do
      return { d with first := some (← Stack.readNullable) }⟩,
    ⟨"S2", fun d => d.second.isSome, fun d => do
      return { d with second := some (← Stack.readNullable) }⟩,
    ⟨"Count", fun d => d.count.isSome, fun d => do return { d with count := some (← readCount) }⟩]
  start := {}
  finish d := do return ⟨← d.first, ← d.second, ← d.count⟩

/-- Reads a pair of stacks. -/
def read : Reader StackPair := Json.record layout

end StackPair

namespace Edge

/-- The evidence of an edge as JSON text. -/
def json (e : Edge) : String := Json.object [("Stacks", Json.array (e.pairs.map StackPair.json))]

/-- How the evidence of an edge is read. -/
def layout : Json.Record (Option (List StackPair)) Edge where
  title := "Edge"
  fields := [
    ⟨"Stacks", fun d => d.isSome, fun _ => do return some (← readNullableList StackPair.read)⟩]
  start := none
  finish d := do return ⟨← d⟩

/-- Reads the evidence of an edge. -/
def read : Reader Edge := Json.record layout

end Edge

namespace Graph

/-- A graph as JSON text. -/
def json (g : Graph) : String :=
  Json.object [
    ("Labels", Json.array (g.labels.toList.map Json.quote)),
    ("Edges", Json.array (g.edges.toList.map fun edges => Json.array (edges.map Edge.json))),
    ("To", Json.array (g.targets.toList.map fun ts => Json.array (ts.map Text.decimal))),
    ("StackTable", g.table.json)]

/-- The fields of a graph that were read. -/
structure Draft where
  /-- The class of each node. -/
  labels : Option (List String) := none
  /-- The evidence of the out-edges of each node. -/
  edges : Option (List (List Edge)) := none
  /-- The targets of the out-edges of each node. -/
  targets : Option (List (List Nat)) := none
  /-- The names that the stacks refer to. -/
  table : Option StackTable := none

/-- How a graph is read. -/
def layout : Json.Record Draft Graph where
  title := "Graph"
  fields := [
    ⟨"Labels", fun d => d.labels.isSome, fun d => do
      return { d with labels := some (← readNullableList Json.text) }⟩,
    ⟨"Edges", fun d => d.edges.isSome, fun d => do
      return { d with edges := some (← readNullableList (readNullableList Edge.read)) }⟩,
    ⟨"To", fun d => d.targets.isSome, fun d => do
      return { d with targets := some (← readNullableList (readNullableList readIndex)) }⟩,
    ⟨"StackTable", fun d => d.table.isSome, fun d => do
      return { d with table := some (← StackTable.read) }⟩]
  start := {}
  finish d := do
    return ⟨(← d.labels).toArray, (← d.edges).toArray, (← d.targets).toArray, ← d.table⟩

/-- Reads a graph. Its structure is not checked. -/
def read : Reader Graph := Json.record layout

end Graph

end LockOrder
