import LockOrder.Proofs.Digraph.Order
import LockOrder.Proofs.Graph.Restrict

/-!
# The projection onto cycles

The projection of a sound graph onto its cycles keeps a component with a second member as an
interval of nodes with the edges inside it, and nothing else. It is therefore a grouped graph: all
of it lies on cycles, in the order that it has, and projecting it again changes nothing.

## Main results

* `Graph.Sound.grouped_cycleGraph` — the components of the projection are intervals
* `Graph.cycleGraph_idempotent` — the projection onto cycles is idempotent
-/

namespace LockOrder.Graph

open Relation
open LockOrder.Digraph

variable {g h : Graph} {i j u v : Nat}

/-- The nodes on cycles, from which the projection is made. -/
def cycleNodes (g : Graph) : List Nat := cyclicNodes g.digraph.componentsOf

theorem Sound.cycles_eq_ok (hg : g.Sound) :
    g.cycles = .ok (g.digraph.cyclesIn g.digraph.componentsOf) :=
  Digraph.cycles_eq_ok hg.digraph_closed

theorem Sound.cycleGraph_eq (hg : g.Sound) :
    g.cycleGraph = g.restrict g.cycleNodes (g.digraph.cyclesIn g.digraph.componentsOf).edges := by
  rw [cycleGraph, hg.cycles_eq_ok]
  rfl

/-- A sound graph can be projected onto its cycles. -/
theorem Sound.exists_cycleGraph (hg : g.Sound) : ∃ h, g.cycleGraph = .ok h := by
  have hclosed := hg.digraph_closed
  rw [hg.cycleGraph_eq]
  refine hg.exists_restrict (fun v hv => ((mem_cyclicNodes hclosed).mp hv).1) fun e he => ?_
  obtain ⟨hnode, w, hw, hback⟩ := (mem_cycleEdges hclosed).mp he
  have hstep : g.digraph.Step e.node w := List.mem_of_getElem? hw
  exact ⟨hnode, w, mem_cyclicNodes_of_linked hclosed hnode ⟨.single hstep, hback⟩,
    targetAt_eq_ok_iff.mpr hw⟩

/-- The component that the node at a place was in. -/
def groupAt (g : Graph) (i : Nat) : Nat :=
  g.digraph.componentsOf.componentOf.getD (g.cycleNodes.getD i 0) 0

section Places

variable (hg : g.Sound) (hh : g.cycleGraph = .ok h)
include hg hh

theorem Sound.nodeCount_cycleGraph : h.nodeCount = g.cycleNodes.length :=
  nodeCount_restrict (hg.cycleGraph_eq ▸ hh)

/-- The projection has the edges between linked nodes. -/
theorem Sound.step_cycleGraph_iff (hu : g.cycleNodes[i]? = some u)
    (hv : g.cycleNodes[j]? = some v) :
    h.digraph.Step i j ↔ g.digraph.Step u v ∧ g.digraph.Linked u v := by
  have hclosed := hg.digraph_closed
  have hplace : ∀ {w k}, lastIndex? w g.cycleNodes = some k ↔ g.cycleNodes[k]? = some w :=
    lastIndex?_eq_some_iff_of_nodup (nodup_cyclicNodes hclosed)
  rw [step_restrict_iff (hg.cycleGraph_eq ▸ hh) (List.getElem?_eq_some_iff.mp hu).1]
  constructor
  · rintro ⟨e, he, hsource, w, hw, htarget⟩
    rw [hplace, hu, Option.some.injEq] at hsource
    rw [hplace, hv, Option.some.injEq] at htarget
    subst hsource htarget
    obtain ⟨_, w, hw', hback⟩ := (mem_cycleEdges hclosed).mp he
    rw [targetAt_eq_ok_iff] at hw
    obtain rfl := Option.some.inj (hw.symm.trans hw')
    have hstep : g.digraph.Step e.node v := List.mem_of_getElem? hw
    exact ⟨hstep, .single hstep, hback⟩
  · rintro ⟨hstep, hlinked⟩
    obtain ⟨k, hk⟩ := step_digraph_iff.mp hstep
    refine ⟨⟨u, k⟩, (mem_cycleEdges hclosed).mpr ⟨List.mem_of_getElem? hu, v, ?_, hlinked.2⟩,
      hplace.mpr hu, v, hk, hplace.mpr hv⟩
    exact targetAt_eq_ok_iff.mp hk

/-- The projection keeps every walk inside a component. -/
theorem Sound.reaches_cycleGraph (hu : g.cycleNodes[i]? = some u) (huv : g.digraph.Reaches u v)
    (hvu : g.digraph.Reaches v u) : ∃ j, g.cycleNodes[j]? = some v ∧ h.digraph.Reaches i j := by
  induction huv with
  | refl => exact ⟨i, hu, .refl⟩
  | @tail w v huw hwv ih =>
    -- the nodes on the walk are all linked to its start
    have hwu : g.digraph.Reaches w u := ReflTransGen.head hwv hvu
    obtain ⟨k, hk, hik⟩ := ih hwu
    have hlinked : g.digraph.Linked w v := ⟨.single hwv, ReflTransGen.trans hvu huw⟩
    obtain ⟨j, hj⟩ := List.mem_iff_getElem?.mp
      (mem_cyclicNodes_of_linked hg.digraph_closed (List.mem_of_getElem? hk) hlinked)
    exact ⟨j, hj, ReflTransGen.tail hik ((hg.step_cycleGraph_iff hh hk hj).mpr ⟨hwv, hlinked⟩)⟩

theorem Sound.linked_cycleGraph (hu : g.cycleNodes[i]? = some u) (hv : g.cycleNodes[j]? = some v)
    (huv : g.digraph.Linked u v) : h.digraph.Linked i j := by
  have hnodup := nodup_cyclicNodes hg.digraph_closed
  have hreach : ∀ {i j u v}, g.cycleNodes[i]? = some u → g.cycleNodes[j]? = some v →
      g.digraph.Linked u v → h.digraph.Reaches i j := by
    intro i j u v hu hv huv
    obtain ⟨j', hj', hij'⟩ := hg.reaches_cycleGraph hh hu huv.1 huv.2
    have hlt : j' < g.cycleNodes.length := (List.getElem?_eq_some_iff.mp hj').1
    rwa [(List.getElem?_inj hlt hnodup).mp (hj'.trans hv.symm)] at hij'
  exact ⟨hreach hu hv huv, hreach hv hu huv.symm⟩

/-- Every place holds a node of the graph, with its component. -/
theorem Sound.exists_groupAt (hi : i < h.digraph.order) :
    ∃ u, g.cycleNodes[i]? = some u ∧
      g.digraph.componentsOf.componentOf[u]? = some (g.groupAt i) := by
  have hclosed := hg.digraph_closed
  have hlt : i < g.cycleNodes.length := hg.nodeCount_cycleGraph hh ▸ hi
  have hu : g.cycleNodes[i]? = some g.cycleNodes[i] := List.getElem?_eq_getElem hlt
  have hmem := (mem_cyclicNodes hclosed).mp (List.mem_of_getElem? hu)
  obtain ⟨k, hk⟩ := exists_componentOf hclosed hmem.1
  refine ⟨g.cycleNodes[i], hu, ?_⟩
  rw [groupAt, List.getD_eq_getElem?_getD, hu, Array.getD_eq_getD_getElem?]
  simp only [Option.getD_some, hk]

/-- The components of the projection are intervals of nodes. -/
theorem Sound.grouped_cycleGraph : Grouped h.digraph g.groupAt := by
  have hclosed := hg.digraph_closed
  have hclosed' := (hg.restrict (hg.cycleGraph_eq ▸ hh)).digraph_closed
  constructor
  case closed => exact hclosed'
  case mono =>
    -- the nodes were listed component by component
    intro i j hij hj
    rcases Nat.lt_or_eq_of_le hij with hlt | rfl
    · obtain ⟨u, hu, hk⟩ := hg.exists_groupAt hh (Nat.lt_trans hlt hj)
      obtain ⟨v, hv, hl⟩ := hg.exists_groupAt hh hj
      obtain ⟨hi', rfl⟩ := List.getElem?_eq_some_iff.mp hu
      obtain ⟨hj', rfl⟩ := List.getElem?_eq_some_iff.mp hv
      obtain ⟨k, l, hk', hl', hle⟩ :=
        List.pairwise_iff_getElem.mp (pairwise_cyclicNodes hclosed) i j hi' hj' hlt
      rw [Option.some.inj (hk.symm.trans hk'), Option.some.inj (hl.symm.trans hl')]
      omega
    · exact Nat.le_refl _
  case linked =>
    intro i hi j hj hgroup
    obtain ⟨u, hu, hk⟩ := hg.exists_groupAt hh hi
    obtain ⟨v, hv, hl⟩ := hg.exists_groupAt hh hj
    exact hg.linked_cycleGraph hh hu hv ((componentOf_eq_iff_linked hclosed hk hl).mp hgroup)
  case step =>
    intro i hi j hij
    obtain ⟨u, hu, hk⟩ := hg.exists_groupAt hh hi
    obtain ⟨v, hv, hl⟩ := hg.exists_groupAt hh (hclosed'.inside i hi j hij)
    exact (componentOf_eq_iff_linked hclosed hk hl).mpr
      ((hg.step_cycleGraph_iff hh hu hv).mp hij).2
  case second =>
    -- a node is kept for a second member of its component, which is kept with it
    intro i hi
    obtain ⟨u, hu, _⟩ := hg.exists_groupAt hh hi
    obtain ⟨_, w, hne, hlinked⟩ := (mem_cyclicNodes hclosed).mp (List.mem_of_getElem? hu)
    obtain ⟨j, hj, _⟩ := hg.reaches_cycleGraph hh hu hlinked.1 hlinked.2
    refine ⟨j, fun heq => ?_, hg.linked_cycleGraph hh hu hj hlinked⟩
    rw [heq, hu, Option.some.injEq] at hj
    exact hne hj.symm

end Places

/-- The cycles of a graph of which the components are intervals are all of it, in order. -/
theorem Sound.cycles_eq_all {group : Nat → Nat} (hh : h.Sound)
    (hgrouped : Grouped h.digraph group) :
    h.cycles = .ok ⟨List.range h.nodeCount, h.edgeIds⟩ := by
  rw [hh.cycles_eq_ok, hgrouped.cyclesIn_eq, edgeIds_eq_flatMap, hh.targets_size]
  rfl

/-! ### Idempotence -/

/-- **The projection onto cycles is idempotent.** A graph that passes the check can be projected
onto its cycles. The projection passes the check, its cycles are all of its nodes and edges in their
order, and projecting it once more gives it back. -/
theorem cycleGraph_idempotent (g : Graph) (hg : g.check = .ok ()) :
    ∃ set h, g.cycles = .ok set ∧ g.restrict set.nodes set.edges = .ok h ∧ g.cycleGraph = .ok h ∧
      h.check = .ok () ∧ h.cycles = .ok ⟨List.range h.nodeCount, h.edgeIds⟩ ∧
      h.cycleGraph = .ok h := by
  rw [check_eq_ok_iff] at hg
  obtain ⟨h, hh⟩ := hg.exists_cycleGraph
  have hsound : h.Sound := hg.restrict (hg.cycleGraph_eq ▸ hh)
  have hcycles := hsound.cycles_eq_all (hg.grouped_cycleGraph hh)
  refine ⟨_, h, hg.cycles_eq_ok, hg.cycleGraph_eq ▸ hh, hh, check_eq_ok_iff.mpr hsound, hcycles, ?_⟩
  rw [cycleGraph, hcycles]
  exact hsound.restrict_all

/-- Two cycles, of which the first leads to the second, and a node with a loop between them. -/
theorem cycleGraph_idempotent_two :
    let g : Graph := ⟨#["a", "b", "c", "d", "e"], #[[⟨[]⟩, ⟨[]⟩], [⟨[]⟩], [⟨[]⟩], [⟨[]⟩], [⟨[]⟩]],
      #[[3, 1], [4], [2], [0], [1]], ⟨⟨#[]⟩, ⟨#[]⟩⟩⟩
    g.check = .ok () ∧
      ∃ set h, g.cycles = .ok set ∧ g.restrict set.nodes set.edges = .ok h ∧ g.cycleGraph = .ok h ∧
        h.check = .ok () ∧ h.cycles = .ok ⟨List.range h.nodeCount, h.edgeIds⟩ ∧
        h.cycleGraph = .ok h := by
  intro g
  exact ⟨rfl, cycleGraph_idempotent g rfl⟩

end LockOrder.Graph
