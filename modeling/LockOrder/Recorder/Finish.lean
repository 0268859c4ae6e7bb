import LockOrder.Recorder.Basic

/-!
# The recorded lock graph

The classes of a recorder become the nodes of a lock graph, in the order of their labels, and
its evidence becomes the edges, in the order of their targets. Neither depends on the order in
which the program's threads happened to run.

## Main definitions

* `Recorder.classOrder` — the classes by label
* `Recorder.finish` — the lock graph of all that was recorded
-/

namespace LockOrder.Recorder

/-- The label of a class. -/
def labelOf (r : Recorder) (c : Nat) : String := (r.classes[c]?.map LockClass.label).getD ""

/-- The classes by label. -/
def classOrder (r : Recorder) : List Nat :=
  (List.range r.classes.size).mergeSort fun a b => r.labelOf a ≤ r.labelOf b

/-- The out-edges of a class by target node, given the classes in the order of the nodes. -/
def outEdges (r : Recorder) (order : List Nat) (c : Nat) : List (Nat × Edge) :=
  match r.classes[c]? with
  | none => []
  | some k =>
    (k.out.entries.map fun (target, evidence) => (order.idxOf target, evidence.toEdge)).mergeSort
      fun a b => a.1 ≤ b.1

/-- The lock graph of all that was recorded so far. -/
def finish (r : Recorder) : Graph :=
  let order := r.classOrder
  let out := order.map (r.outEdges order)
  { labels := (order.map r.labelOf).toArray
    edges := (out.map fun edges => edges.map Prod.snd).toArray
    targets := (out.map fun edges => edges.map Prod.fst).toArray
    table := r.table }

/-- The event that tells of a recorded graph. -/
def finishEvent (g : Graph) : Event :=
  .finished g.nodeCount g.edgeCount g.stackPairCount

end LockOrder.Recorder
