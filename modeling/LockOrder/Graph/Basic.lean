import LockOrder.Digraph.Basic
import LockOrder.Number.Basic
import LockOrder.Stack.Table

/-!
# Lock graphs

A lock graph has a node for each class of locks and an edge from one class to another when a
thread took a lock of the second while it held a lock of the first. An edge carries its
evidence: the stacks at which the two locks were taken, in pairs, with the number of times each
pair was seen.

The three arrays of a graph run in parallel. A graph that came from outside need not respect
that, so reading one is a checked operation; `Graph.check` decides whether it does.

## Main definitions

* `StackPair`, `Edge`, `Graph` — the graph and its evidence
* `Graph.digraph` — the graph as the cycle analysis sees it
* `Graph.edgeIds` — the names of its edges
* `Graph.edgeAt`, `Graph.targetAt`, `Graph.labelAt` — checked reading
-/

namespace LockOrder

/-- Two stacks at which a lock was taken and then another, and how often that was seen. -/
structure StackPair where
  /-- Where the first lock was taken. -/
  first : Stack
  /-- Where the second lock was taken, the first one being held. -/
  second : Stack
  /-- How often the pair was seen. -/
  count : Nat
deriving DecidableEq, Repr, Inhabited

/-- The evidence for an edge. -/
structure Edge where
  /-- The pairs of stacks that were seen. -/
  pairs : List StackPair
deriving DecidableEq, Repr, Inhabited

/-- The number of times that an edge was seen. -/
def Edge.totalCount (e : Edge) : Nat := total (e.pairs.map StackPair.count)

/-- A lock graph. -/
structure Graph where
  /-- The class of each node. -/
  labels : Array String
  /-- The evidence of the out-edges of each node. -/
  edges : Array (List Edge)
  /-- The targets of the out-edges of each node. -/
  targets : Array (List Nat)
  /-- The names that the stacks refer to. -/
  table : StackTable
deriving DecidableEq, Repr, Inhabited

namespace Graph

/-- The graph without nodes over a stack table. -/
def empty (table : StackTable) : Graph := ⟨#[], #[], #[], table⟩

/-- The number of nodes. -/
def nodeCount (g : Graph) : Nat := g.labels.size

/-- The number of edges. -/
def edgeCount (g : Graph) : Nat := total (g.targets.toList.map List.length)

/-- The number of pairs of stacks over all edges. -/
def stackPairCount (g : Graph) : Nat :=
  total (g.edges.toList.flatten.map fun e => e.pairs.length)

/-- The nodes and edges of a lock graph without their labels and evidence. -/
def digraph (g : Graph) : Digraph := ⟨g.nodeCount, g.targets⟩

/-- The targets of the out-edges of a node. -/
def out (g : Graph) (node : Nat) : Except Fault (List Nat) := arrayAt g.targets node

/-- The evidence of an edge. -/
def edgeAt (g : Graph) (e : EdgeId) : Except Fault Edge := do
  listAt (← arrayAt g.edges e.node) e.edge

/-- The target of an edge. -/
def targetAt (g : Graph) (e : EdgeId) : Except Fault Nat := do
  listAt (← arrayAt g.targets e.node) e.edge

/-- The text without `start` at its beginning, if it is there. -/
def stripStart (start text : String) : String :=
  if start.toList.isPrefixOf text.toList then String.ofList (text.toList.drop start.length)
  else text

/-- A beginning that is there is left out, and only once. -/
theorem stripStart_append (start rest : String) : stripStart start (start ++ rest) = rest := by
  have hstarts : start.toList.isPrefixOf (start ++ rest).toList = true := by
    rw [List.isPrefixOf_iff_prefix, String.toList_append]
    exact List.prefix_append _ _
  rw [stripStart, if_pos hstarts, String.toList_append, ← String.length_toList, List.drop_left,
    String.ofList_toList]

/-- Text that does not begin so stays as it is. -/
theorem stripStart_of_ne_append {start text : String} (h : ∀ rest, text ≠ start ++ rest) :
    stripStart start text = text := by
  refine if_neg fun hstarts => ?_
  obtain ⟨rest, hrest⟩ := List.isPrefixOf_iff_prefix.mp hstarts
  refine h (String.ofList rest) (String.toList_injective ?_)
  rw [String.toList_append, String.toList_ofList, hrest]

/-- The label of a node as reports show it: without `start` at its beginning. -/
def labelAt (g : Graph) (start : String) (node : Nat) : Except Fault String := do
  return stripStart start (← arrayAt g.labels node)

/-- The names of the edges, ordered by source node and then by position. -/
def edgeIds (g : Graph) : List EdgeId :=
  g.targets.toList.zipIdx.flatMap fun (targets, node) =>
    (List.range targets.length).map fun edge => ⟨node, edge⟩

end Graph

end LockOrder
