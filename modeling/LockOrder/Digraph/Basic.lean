import LockOrder.Position

/-!
# Directed multigraphs

The cycle analysis sees a graph only as numbered nodes with a list of successors each; an edge
is a position in such a list. Self-loops and parallel edges are allowed.

A lock graph that came from outside may have fewer successor lists than nodes, or successors
that are no nodes. `Digraph.check` finds the first such place; the analyses run it before they
start, and are total functions of what it accepts.

## Main definitions

* `Digraph` — the graph
* `Digraph.targets` — the successors of a node
* `Digraph.Step` — the edge relation
* `Digraph.check` — whether every edge ends in the graph
* `Digraph.predecessors` — the sources of the edges into each node
-/

namespace LockOrder

/-- A directed multigraph on the nodes `0, …, order - 1`. -/
structure Digraph where
  /-- The number of nodes. -/
  order : Nat
  /-- The successors of each node, one entry for each edge. -/
  successors : Array (List Nat)
deriving DecidableEq, Repr, Inhabited

namespace Digraph

/-- The graph with the given successor lists and a node for each of them. -/
def ofLists (lists : List (List Nat)) : Digraph := ⟨lists.length, lists.toArray⟩

/-- The successors of a node. -/
def targets (g : Digraph) (v : Nat) : List Nat := g.successors.getD v []

/-- Some edge leads from `u` to `v`. -/
def Step (g : Digraph) (u v : Nat) : Prop := v ∈ g.targets u

instance (g : Digraph) (u v : Nat) : Decidable (g.Step u v) :=
  inferInstanceAs (Decidable (v ∈ g.targets u))

/-- The successors of a node, or a fault if the graph has no list for it. -/
def out (g : Digraph) (v : Nat) : Except Fault (List Nat) := arrayAt g.successors v

/-- Checks that each of the targets is a node. -/
def checkTargets (order : Nat) : List Nat → Except Fault Unit
  | [] => .ok ()
  | v :: vs => if v < order then checkTargets order vs else .error (.index order v)

/-- Checks the nodes in order: each has a list of successors, and these are nodes. -/
def check (g : Digraph) : Except Fault Unit :=
  (List.range g.order).forM fun v => do checkTargets g.order (← g.out v)

/-- The ends of every edge, ordered by source and then by position. -/
def arcs (g : Digraph) : List (Nat × Nat) :=
  (List.range g.order).flatMap fun u => (g.targets u).map fun v => (u, v)

/-- The sources of the edges into each node, one entry for each edge, ordered by source and then
by position. -/
def predecessors (g : Digraph) : Array (List Nat) :=
  buckets g.order (g.arcs.map Prod.swap)

end Digraph

end LockOrder
