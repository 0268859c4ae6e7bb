import LockOrder.Graph.Basic
import LockOrder.Proofs.Digraph.Reach
import Mathlib.Data.List.Nodup

/-!
# Reading lock graphs

An edge is named by its source and its position among the out-edges there. A lock graph has an edge
exactly when the directed graph behind it has a successor at that position.

## Main definitions

* `Digraph.edgesFrom` — the names of the out-edges of a node

## Main results

* `Graph.targetAt_eq_ok_iff`, `Graph.edgeAt_eq_ok_iff` — what stands at an edge
* `Graph.edgeIds_eq_flatMap`, `Graph.mem_edgeIds` — the names of the edges
-/

namespace LockOrder

/-! ### The names of edges -/

namespace Digraph

variable {g : Digraph} {v : Nat} {e : EdgeId}

/-- The names of the out-edges of a node. -/
def edgesFrom (g : Digraph) (v : Nat) : List EdgeId :=
  (List.range (g.targets v).length).map fun i => ⟨v, i⟩

theorem mem_edgesFrom : e ∈ g.edgesFrom v ↔ e.node = v ∧ e.edge < (g.targets v).length := by
  simp only [edgesFrom, List.mem_map, List.mem_range]
  constructor
  · rintro ⟨i, hi, rfl⟩
    exact ⟨rfl, hi⟩
  · rintro ⟨rfl, hi⟩
    exact ⟨e.edge, hi, rfl⟩

theorem edgesFrom_eq_map_zipIdx :
    g.edgesFrom v = (g.targets v).zipIdx.map fun edge => ⟨v, edge.2⟩ := by
  rw [edgesFrom, List.range_eq_range', ← List.zipIdx_map_snd, List.map_map]
  rfl

end Digraph

namespace Graph

variable {g : Graph} {e : EdgeId} {u v : Nat} {edge : Edge}

/-! ### Reading an edge -/

/-- The target of an edge as it stands in the array of targets. -/
theorem targetAt_eq_ok_iff_exists :
    g.targetAt e = .ok v ↔
      ∃ targets, g.targets[e.node]? = some targets ∧ targets[e.edge]? = some v := by
  rw [targetAt, Outcome.bind_eq_ok_iff]
  simp only [arrayAt_eq_ok_iff, listAt_eq_ok_iff]

theorem targetAt_eq_ok_iff :
    g.targetAt e = .ok v ↔ (g.digraph.targets e.node)[e.edge]? = some v := by
  rw [targetAt_eq_ok_iff_exists]
  simp only [digraph, Digraph.targets, Array.getD_eq_getD_getElem?]
  cases g.targets[e.node]? <;> simp

theorem edgeAt_eq_ok_iff :
    g.edgeAt e = .ok edge ↔
      ∃ edges, g.edges[e.node]? = some edges ∧ edges[e.edge]? = some edge := by
  rw [edgeAt, Outcome.bind_eq_ok_iff]
  simp only [arrayAt_eq_ok_iff, listAt_eq_ok_iff]

/-- The out-edges of a node lead to its targets. -/
theorem forall₂_targetAt (g : Graph) (v : Nat) :
    List.Forall₂ (fun e t => g.targetAt e = .ok t) (g.digraph.edgesFrom v)
      (g.digraph.targets v) := by
  rw [Digraph.edgesFrom, List.forall₂_map_left_iff]
  exact forall₂_range fun i t ht => targetAt_eq_ok_iff.mpr ht

theorem step_digraph_iff : g.digraph.Step u v ↔ ∃ i, g.targetAt ⟨u, i⟩ = .ok v := by
  simp only [targetAt_eq_ok_iff]
  exact List.mem_iff_getElem?

/-- The names of the edges are those of the out-edges of each node in turn. -/
theorem edgeIds_eq_flatMap :
    g.edgeIds = (List.range g.targets.size).flatMap g.digraph.edgesFrom := by
  have hnodes : g.targets.toList.zipIdx =
      (List.range g.targets.size).map fun v => (g.digraph.targets v, v) := by
    refine List.ext_getElem? fun i => ?_
    by_cases hi : i < g.targets.size
    · simp [digraph, Digraph.targets, hi]
    · simp [hi]
  rw [edgeIds, hnodes, List.flatMap_map]
  rfl

/-- A graph has an edge of a name exactly when the edge has a target. -/
theorem mem_edgeIds : e ∈ g.edgeIds ↔ ∃ v, g.targetAt e = .ok v := by
  simp only [edgeIds_eq_flatMap, List.mem_flatMap, List.mem_range, Digraph.mem_edgesFrom,
    targetAt_eq_ok_iff, List.getElem?_eq_some_iff]
  constructor
  · rintro ⟨_, _, rfl, hedge⟩
    exact ⟨_, hedge, rfl⟩
  · rintro ⟨_, hedge, _⟩
    refine ⟨e.node, ?_, rfl, hedge⟩
    by_contra hnode
    simp [digraph, Digraph.targets, Array.getD_eq_getD_getElem?, hnode] at hedge

end Graph

end LockOrder
