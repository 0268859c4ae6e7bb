import LockOrder.Digraph.Cycles

/-!
# Leaving edges out

To ask whether a set of edges is to blame for a cycle, one looks at the graph without them.
The remaining edges of a node are renumbered, so the view remembers where each one stood.

## Main definitions

* `Exclusion` — a graph without some of its edges
* `Digraph.exclude` — the view
* `Exclusion.restore` — the edge of the whole graph behind an edge of the view
* `Exclusion.survey` — the cycles of the view, named by edges of the whole graph
-/

namespace LockOrder

/-- A graph without some edges of another. -/
structure Exclusion where
  /-- The graph that is left. -/
  graph : Digraph
  /-- For each node, the positions that its remaining edges had. -/
  positions : Array (List Nat)
deriving DecidableEq, Repr, Inhabited

namespace Digraph

/-- The targets and positions of the edges of `v` that are not excluded. -/
def remaining (excluded : List EdgeId) (v : Nat) (targets : List Nat) : List (Nat × Nat) :=
  targets.zipIdx.filter fun (_, i) => !excluded.contains ⟨v, i⟩

/-- The graph without the excluded edges. Names of edges that it does not have are ignored. -/
def exclude (g : Digraph) (excluded : List EdgeId) : Except Fault Exclusion := do
  let kept ← (List.range g.order).mapM fun v => do
    return remaining excluded v (← g.out v)
  return {
    graph := .ofLists (kept.map fun edges => edges.map Prod.fst)
    positions := (kept.map fun edges => edges.map Prod.snd).toArray }

end Digraph

namespace Exclusion

/-- The edge of the whole graph that an edge of the view stands for. -/
def restore (x : Exclusion) (e : EdgeId) : Except Fault EdgeId := do
  return ⟨e.node, ← listAt (← arrayAt x.positions e.node) e.edge⟩

/-- The same nodes, with edges of the whole graph in place of edges of the view. -/
def restoreAll (x : Exclusion) (set : CycleSet) : Except Fault CycleSet := do
  return ⟨set.nodes, ← set.edges.mapM x.restore⟩

/-- The cycles of the view named by edges of the whole graph, and the event of the analysis. -/
def survey (x : Exclusion) : Except Fault (CycleSet × Event) := do
  let (set, event) ← x.graph.survey
  return (← x.restoreAll set, event)

end Exclusion

end LockOrder
