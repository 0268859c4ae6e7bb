import LockOrder.Digraph.Components
import LockOrder.Event

/-!
# Nodes and edges on cycles

A node lies on a cycle when its component has a second member; a node whose only cycle is a
self-loop does not count. An edge lies on a cycle when its source does and its target is in the
same component.

## Main definitions

* `CycleSet` — nodes and edges on cycles
* `Digraph.cyclesIn` — the cycles of a graph, given its components
* `Digraph.cycles` — the cycles of a graph
* `Digraph.survey` — the same, with the event that tells of it
-/

namespace LockOrder

/-- The nodes and edges of a graph that lie on cycles. Nodes come component by component in
topological order, ascending inside one; edges follow their source nodes. -/
structure CycleSet where
  /-- The nodes. -/
  nodes : List Nat
  /-- The edges. -/
  edges : List EdgeId
deriving DecidableEq, Repr, Inhabited

namespace Digraph

/-- The nodes whose component has a second member. -/
def cyclicNodes (c : Components) : List Nat :=
  (c.members.toList.filter fun members => 1 < members.length).flatten

/-- The edges out of `v` that stay in its component. -/
def innerEdges (g : Digraph) (c : Components) (v : Nat) : List EdgeId :=
  (g.targets v).zipIdx.filterMap fun (w, i) => if c.same v w then some ⟨v, i⟩ else none

/-- The nodes and edges on cycles, given the components. -/
def cyclesIn (g : Digraph) (c : Components) : CycleSet :=
  let nodes := cyclicNodes c
  ⟨nodes, nodes.flatMap (g.innerEdges c)⟩

/-- The nodes and edges on cycles, and the event that tells of the analysis. -/
def survey (g : Digraph) : Except Fault (CycleSet × Event) := do
  let c ← g.components
  let set := g.cyclesIn c
  return (set, .cyclesFound set.nodes.length set.edges.length c.size)

/-- The nodes and edges on cycles. -/
def cycles (g : Digraph) : Except Fault CycleSet := do
  return g.cyclesIn (← g.components)

end Digraph

end LockOrder
