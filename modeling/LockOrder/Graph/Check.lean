import LockOrder.Graph.Basic

/-!
# Structure of lock graphs

A graph from outside is checked once, before anything else looks at it: its arrays run in
parallel, its edges end in it, every pair of stacks was seen at least once, and every frame
points inside the stack table.

## Main definitions

* `Graph.Flaw` — the ways to violate that
* `Graph.check` — the first violation
-/

namespace LockOrder.Graph

/-- What is wrong with the structure of a graph. -/
inductive Flaw where
  /-- The numbers of labels, of evidence lists and of target lists differ. -/
  | sizes (labels edges targets : Nat)
  /-- A node has evidence for another number of edges than it has targets. -/
  | outDegree (node edges targets : Nat)
  /-- An edge ends in a node that does not exist. -/
  | strayTarget (node target : Nat)
  /-- A pair of stacks was never seen. -/
  | zeroCount (edge : EdgeId)
  /-- A frame points outside the stack table. -/
  | frame (edge : EdgeId) (flaw : StackTable.PosFlaw)
deriving DecidableEq, Repr

/-- The message of a flaw. -/
def Flaw.message : Flaw → String
  | .sizes labels edges targets =>
    s!"{labels} labels but {edges} edge lists and {targets} target lists"
  | .outDegree node edges targets => s!"node {node} has {edges} edges but {targets} targets"
  | .strayTarget node target => s!"node {node} has an edge to nonexistent node {target}"
  | .zeroCount edge => s!"edge {edge} has a zero-count stack pair"
  | .frame edge flaw => s!"edge {edge}: {flaw.message}"

/-- Checks the out-edges of one node in a graph of `n` nodes: as much evidence as targets, and
no target out of the graph. -/
def checkNode (n node : Nat) (edges : List Edge) (targets : List Nat) : Except Flaw Unit :=
  if edges.length ≠ targets.length then .error (.outDegree node edges.length targets.length)
  else
    match targets.find? fun t => n ≤ t with
    | some t => .error (.strayTarget node t)
    | none => .ok ()

/-- Checks a pair of stacks: seen at least once, and with every frame inside the table. -/
def checkPair (table : StackTable) (id : EdgeId) (pair : StackPair) : Except Flaw Unit := do
  if pair.count = 0 then throw (.zeroCount id)
  (pair.first.frames ++ pair.second.frames).forM fun pos =>
    (table.check pos).mapError (Flaw.frame id)

/-- Checks the evidence of the out-edges of one node. -/
def checkEvidence (table : StackTable) (node : Nat) (edges : List Edge) : Except Flaw Unit :=
  edges.zipIdx.forM fun (e, i) => e.pairs.forM (checkPair table ⟨node, i⟩)

/-- Checks the structure of a graph: the sizes, then the ends of every edge, then the evidence
of every edge. -/
def check (g : Graph) : Except Flaw Unit := do
  let n := g.nodeCount
  if g.edges.size ≠ n ∨ g.targets.size ≠ n then
    throw (.sizes n g.edges.size g.targets.size)
  (g.edges.toList.zip g.targets.toList).zipIdx.forM fun ((edges, targets), node) =>
    checkNode n node edges targets
  g.edges.toList.zipIdx.forM fun (edges, node) => checkEvidence g.table node edges

end LockOrder.Graph
