import LockOrder.Digraph.Cycles
import LockOrder.Graph.Basic

/-!
# Building and projecting lock graphs

Nodes and edges are appended; a projection keeps chosen nodes and edges in a chosen order. A
step that breaks its contract is a fault and yields no graph.

## Main definitions

* `Graph.addNode`, `Graph.addEdge` — appending
* `Graph.restrict` — the projection onto lists of nodes and edges
* `Graph.cycles`, `Graph.cycleGraph` — the cycles, and the projection onto them
-/

namespace LockOrder.Graph

/-- Appends a node; its index is the number of nodes before. -/
def addNode (g : Graph) (label : String) : Nat × Graph :=
  (g.nodeCount,
    { g with
      labels := g.labels.push label
      edges := g.edges.push []
      targets := g.targets.push [] })

/-- Appends an edge to the out-edges of `source`. Both ends have to be nodes. -/
def addEdge (g : Graph) (source target : Nat) (e : Edge) : Except Fault (EdgeId × Graph) := do
  if g.nodeCount ≤ source ∨ g.nodeCount ≤ target then
    throw (.edgeOutside source target g.nodeCount)
  let edges ← arrayAt g.edges source
  let targets ← arrayAt g.targets source
  return (⟨source, targets.length⟩,
    { g with
      edges := g.edges.setIfInBounds source (edges ++ [e])
      targets := g.targets.setIfInBounds source (targets ++ [target]) })

/-- An edge of `g` as the projection onto `nodes` has it: its new source, its evidence and its
new target. A node that is listed twice is its last entry. -/
def projectEdge (g : Graph) (nodes : List Nat) (e : EdgeId) :
    Except Fault (Nat × Edge × Nat) := do
  let target ← g.targetAt e
  match lastIndex? e.node nodes with
  | none => throw (.sourceDropped e)
  | some newSource =>
    match lastIndex? target nodes with
    | none => throw (.targetDropped e target)
    | some newTarget => return (newSource, ← g.edgeAt e, newTarget)

/-- The projection onto `nodes` and `edges`: the entries of `nodes` become the nodes in order,
and the entries of `edges` the out-edges of their sources in order. The stack table is kept. -/
def restrict (g : Graph) (nodes : List Nat) (edges : List EdgeId) : Except Fault Graph := do
  let labels ← nodes.mapM (arrayAt g.labels)
  let kept ← edges.mapM (g.projectEdge nodes)
  return {
    labels := labels.toArray
    edges := buckets nodes.length (kept.map fun (source, e, _) => (source, e))
    targets := buckets nodes.length (kept.map fun (source, _, target) => (source, target))
    table := g.table }

/-- The nodes and edges on cycles. -/
def cycles (g : Graph) : Except Fault CycleSet := g.digraph.cycles

/-- The projection onto the nodes and edges on cycles. -/
def cycleGraph (g : Graph) : Except Fault Graph := do
  let set ← g.cycles
  g.restrict set.nodes set.edges

end LockOrder.Graph
