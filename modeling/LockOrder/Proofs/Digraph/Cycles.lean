import LockOrder.Digraph.Cycles
import LockOrder.Proofs.Digraph.Components
import Mathlib.Data.List.Flatten
import Mathlib.Data.List.Perm.Subperm

/-!
# Nodes and edges on cycles

The cycle analysis counts the members of components and compares component numbers. In a closed
graph that tells which nodes are linked to another node, and which edges start at such a node and
can be walked back.

## Main results

* `Digraph.mem_cyclicNodes` — the nodes that are linked to another one
* `Digraph.mem_cycleEdges` — the edges at such nodes that can be walked back
-/

namespace LockOrder.Digraph

open Relation

variable {g : Digraph} {v : Nat} {e : EdgeId}

theorem cycles_eq_ok (hg : g.Closed) : g.cycles = .ok (g.cyclesIn g.componentsOf) := by
  rw [cycles, components_eq_ok hg]
  rfl

/-- A list without repetitions that holds `v` has a second element when it is longer than one. -/
theorem one_lt_length_iff {m : List Nat} (hm : m.Nodup) (hv : v ∈ m) :
    1 < m.length ↔ ∃ w ∈ m, w ≠ v := by
  constructor
  · intro hlt
    by_contra hall
    push Not at hall
    -- all elements are `v`, so the list is no longer than `[v]`
    have hsub : m ⊆ [v] := fun w hw => List.mem_singleton.mpr (hall w hw)
    have hle := (List.subperm_of_subset hm hsub).length_le
    simp at hle
    omega
  · rintro ⟨w, hw, hne⟩
    have hsub : [w, v] ⊆ m := by simp [hw, hv]
    have hle := (List.subperm_of_subset (by simpa using hne) hsub).length_le
    exact hle

/-- The nodes on cycles are those that are linked to another node. -/
theorem mem_cyclicNodes (hg : g.Closed) :
    v ∈ cyclicNodes g.componentsOf ↔ v < g.order ∧ ∃ w, w ≠ v ∧ g.Linked v w := by
  have hcoherent := componentsOf_coherent hg
  simp only [cyclicNodes, List.mem_flatten, List.mem_filter, decide_eq_true_eq,
    Array.mem_toList_iff]
  constructor
  · rintro ⟨m, ⟨hm, hlen⟩, hv⟩
    obtain ⟨k, hk⟩ := Array.mem_iff_getElem?.mp hm
    have hnodup : m.Nodup := (hcoherent.sorted m hm).imp Nat.ne_of_lt
    obtain ⟨w, hw, hne⟩ := (one_lt_length_iff hnodup hv).mp hlen
    have hvk := (hcoherent.mem_iff k m hk v).mp hv
    have hwk := (hcoherent.mem_iff k m hk w).mp hw
    exact ⟨lt_order_of_componentOf hg hvk, w, hne, (componentOf_eq_iff_linked hg hvk hwk).mp rfl⟩
  · rintro ⟨hlt, w, hne, hlink⟩
    obtain ⟨j, hj⟩ := exists_componentOf hg hlt
    obtain ⟨k, hk⟩ := exists_componentOf hg (hg.reaches_lt hlt hlink.1)
    obtain rfl := (componentOf_eq_iff_linked hg hj hk).mpr hlink
    obtain ⟨m, hm, hv⟩ := hcoherent.componentOf_eq_iff.mp hj
    have hw := (hcoherent.mem_iff j m hm w).mpr hk
    have hmem := Array.mem_of_getElem? hm
    have hnodup : m.Nodup := (hcoherent.sorted m hmem).imp Nat.ne_of_lt
    exact ⟨m, ⟨hmem, (one_lt_length_iff hnodup hv).mpr ⟨w, hw, hne⟩⟩, hv⟩

theorem mem_cyclicNodes_of_linked (hg : g.Closed) {w : Nat}
    (hv : v ∈ cyclicNodes g.componentsOf) (hvw : g.Linked v w) :
    w ∈ cyclicNodes g.componentsOf := by
  obtain ⟨hlt, u, hne, hvu⟩ := (mem_cyclicNodes hg).mp hv
  refine (mem_cyclicNodes hg).mpr ⟨hg.reaches_lt hlt hvw.1, ?_⟩
  by_cases heq : v = w
  · exact ⟨u, heq ▸ hne, heq ▸ hvu⟩
  · exact ⟨v, heq, hvw.symm⟩

/-- The nodes on cycles are ordered by component and then by node. -/
theorem pairwise_cyclicNodes (hg : g.Closed) :
    (cyclicNodes g.componentsOf).Pairwise fun u v => ∃ i j,
      g.componentsOf.componentOf[u]? = some i ∧ g.componentsOf.componentOf[v]? = some j ∧
        (i < j ∨ i = j ∧ u < v) :=
  (componentsOf_coherent hg).pairwise_flatten.sublist List.filter_sublist.flatten

theorem nodup_cyclicNodes (hg : g.Closed) : (cyclicNodes g.componentsOf).Nodup := by
  refine (pairwise_cyclicNodes hg).imp fun {u v} huv heq => ?_
  obtain ⟨i, j, hi, hj, hlt⟩ := huv
  obtain rfl := heq
  rw [hi, Option.some.injEq] at hj
  omega

theorem mem_innerEdges {c : Components} :
    e ∈ g.innerEdges c v ↔
      e.node = v ∧ ∃ w, (g.targets v)[e.edge]? = some w ∧ c.same v w = true := by
  simp only [innerEdges, List.mem_filterMap, Prod.exists, List.mem_zipIdx_iff_getElem?]
  constructor
  · rintro ⟨w, i, hw, hsome⟩
    by_cases hsame : c.same v w = true
    · obtain rfl : ⟨v, i⟩ = e := by simpa [hsame] using hsome
      exact ⟨rfl, w, hw, hsame⟩
    · simp [hsame] at hsome
  · rintro ⟨rfl, w, hw, hsame⟩
    exact ⟨w, e.edge, hw, by simp [hsame]⟩

/-- The edges on cycles start at a node on a cycle and can be walked back. -/
theorem mem_cycleEdges (hg : g.Closed) :
    e ∈ (g.cyclesIn g.componentsOf).edges ↔ e.node ∈ cyclicNodes g.componentsOf ∧
      ∃ w, (g.targets e.node)[e.edge]? = some w ∧ g.Reaches w e.node := by
  simp only [cyclesIn, List.mem_flatMap, mem_innerEdges]
  constructor
  · rintro ⟨v, hv, rfl, w, hw, hsame⟩
    have hlt := ((mem_cyclicNodes hg).mp hv).1
    have hwlt := hg.inside _ hlt w (List.mem_of_getElem? hw)
    exact ⟨hv, w, hw, ((same_componentsOf_iff hg hlt hwlt).mp hsame).2⟩
  · rintro ⟨hv, w, hw, hback⟩
    have hlt := ((mem_cyclicNodes hg).mp hv).1
    have hstep : g.Step e.node w := List.mem_of_getElem? hw
    have hwlt := hg.inside _ hlt w hstep
    exact ⟨_, hv, rfl, w, hw, (same_componentsOf_iff hg hlt hwlt).mpr ⟨.single hstep, hback⟩⟩

end LockOrder.Digraph
