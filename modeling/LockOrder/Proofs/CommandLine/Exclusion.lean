import LockOrder.Proofs.CommandLine
import LockOrder.Proofs.Digraph.Avoiding

/-!
# Leaving more edges out

Whoever looks for the edges that are to blame for a cycle leaves some out, looks at the cycles that
remain, and leaves more out. A walk that avoids more edges avoids fewer, so the cycles never grow.
The edges on cycles are all that counts: a cycle that remains goes along such edges only, so leaving
out others changes nothing, and leaving out all of them leaves no cycle. The names that are shown
can be given back to leave out those edges too.

## Main definitions

* `Digraph.CyclesWithout` — the cycles of a graph without some of its edges
* `Graph.Addressable` — the positions of nodes and edges are words

## Main results

* `Digraph.Restored.edges_subset` — the cycles of less are cycles of more
* `Digraph.Restored.reachesAvoiding` — walks between linked nodes go along edges on cycles
* `Digraph.exclusion_antitone` — leaving more edges out
-/

namespace LockOrder

open Relation
open CommandLine (checkEdge)

/-- The positions of the nodes, and of the out-edges of each node, are words, as in every graph that
a memory can hold. -/
structure Graph.Addressable (g : Graph) : Prop where
  /-- There are no more nodes than words. -/
  nodes : g.nodeCount ≤ wordBound
  /-- A node has no more out-edges than there are words. -/
  edges : ∀ targets ∈ g.targets.toList, targets.length ≤ wordBound

namespace Digraph

variable {g : Digraph} {excluded more : List EdgeId} {set set' : CycleSet} {u v w : Nat}
  {e : EdgeId}

/-- The cycles of the graph without the excluded edges, named by edges of the graph. -/
def CyclesWithout (g : Digraph) (excluded : List EdgeId) (set : CycleSet) : Prop :=
  ∃ view event, g.exclude excluded = .ok view ∧ view.survey = .ok (set, event)

theorem exists_cyclesWithout (hg : g.Closed) (excluded : List EdgeId) :
    ∃ set, g.CyclesWithout excluded set ∧ g.Restored excluded set := by
  obtain ⟨set, event, _, hsurvey, hrestored⟩ := exists_restored hg excluded
  exact ⟨set, ⟨_, event, exclude_eq_ok hg excluded, hsurvey⟩, hrestored⟩

/-! ### Fewer walks -/

/-- A walk that avoids more edges avoids fewer. -/
theorem ReachesAvoiding.anti (hsub : ∀ e ∈ excluded, e ∈ more) (h : g.ReachesAvoiding more u v) :
    g.ReachesAvoiding excluded u v := by
  refine ReflTransGen.mono (fun x y hstep => ?_) _ _ h
  obtain ⟨i, hi, hout⟩ := hstep
  exact ⟨i, hi, fun hmem => hout (hsub _ hmem)⟩

theorem Restored.nodes_subset (hg : g.Closed) (h : g.Restored excluded set)
    (h' : g.Restored more set') (hsub : ∀ e ∈ excluded, e ∈ more) (hv : v ∈ set'.nodes) :
    v ∈ set.nodes := by
  obtain ⟨hlt, w, hne, hvw, hwv⟩ := (h'.mem_nodes hg).mp hv
  exact (h.mem_nodes hg).mpr ⟨hlt, w, hne, hvw.anti hsub, hwv.anti hsub⟩

/-- The edges on cycles of less are on cycles of more. -/
theorem Restored.edges_subset (hg : g.Closed) (h : g.Restored excluded set)
    (h' : g.Restored more set') (hsub : ∀ e ∈ excluded, e ∈ more) (he : e ∈ set'.edges) :
    e ∈ set.edges := by
  obtain ⟨hout, hnode, w, hw, hback⟩ := (h'.mem_edges hg).mp he
  exact (h.mem_edges hg).mpr
    ⟨fun hmem => hout (hsub e hmem), h.nodes_subset hg h' hsub hnode, w, hw, hback.anti hsub⟩

/-! ### Edges on cycles -/

/-- A node that is linked to a node on a cycle is on a cycle. -/
theorem Restored.mem_nodes_of_linked (hg : g.Closed) (h : g.Restored excluded set)
    (hv : v ∈ set.nodes) (hvw : g.ReachesAvoiding excluded v w)
    (hwv : g.ReachesAvoiding excluded w v) : w ∈ set.nodes := by
  obtain ⟨hlt, u, hne, hvu, huv⟩ := (h.mem_nodes hg).mp hv
  refine (h.mem_nodes hg).mpr ⟨hvw.lt hg hlt, ?_⟩
  by_cases heq : v = w
  · subst heq
    exact ⟨u, hne, hvu, huv⟩
  · exact ⟨v, heq, hwv, hvw⟩

/-- A cycle leaves each of its nodes by an edge on a cycle. -/
theorem Restored.exists_edge (hg : g.Closed) (h : g.Restored excluded set) (hv : v ∈ set.nodes) :
    ∃ i, ⟨v, i⟩ ∈ set.edges := by
  obtain ⟨_, w, hne, hvw, hwv⟩ := (h.mem_nodes hg).mp hv
  -- the way to the other node has a first step
  rcases ReflTransGen.cases_head hvw with rfl | ⟨u, ⟨i, hi, hout⟩, huw⟩
  · exact absurd rfl hne
  · exact ⟨i, (h.mem_edges hg).mpr ⟨hout, hv, u, hi, ReflTransGen.trans huw hwv⟩⟩

/-- A walk from a node on a cycle to where it can be walked back goes along edges on cycles. Edges
that are none of these can be avoided as well. -/
theorem Restored.reachesAvoiding (hg : g.Closed) (h : g.Restored excluded set)
    (havoid : ∀ e ∈ set.edges, e ∉ more) (hv : v ∈ set.nodes)
    (hvw : g.ReachesAvoiding excluded v w) (hwv : g.ReachesAvoiding excluded w v) :
    g.ReachesAvoiding more v w := by
  induction hvw with
  | refl => exact .refl
  | @tail u w hvu hstep ih =>
    have huv : g.ReachesAvoiding excluded u v := ReflTransGen.head hstep hwv
    have hreach := ih huv
    obtain ⟨i, hi, hout⟩ := hstep
    -- the last step starts at a node that is linked to `v`, and so on a cycle
    have hu := h.mem_nodes_of_linked hg hv hvu huv
    have hedge : (⟨u, i⟩ : EdgeId) ∈ set.edges :=
      (h.mem_edges hg).mpr ⟨hout, hu, w, hi, ReflTransGen.trans hwv hvu⟩
    exact ReflTransGen.tail hreach ⟨i, hi, havoid _ hedge⟩

/-- Leaving out edges that are on no cycle leaves the cycles as they are. -/
theorem Restored.iff_of_avoid (hg : g.Closed) (h : g.Restored excluded set)
    (h' : g.Restored more set') (hsub : ∀ e ∈ excluded, e ∈ more)
    (havoid : ∀ e ∈ set.edges, e ∉ more) :
    (∀ v, v ∈ set'.nodes ↔ v ∈ set.nodes) ∧ ∀ e, e ∈ set'.edges ↔ e ∈ set.edges := by
  have hnodes : ∀ v ∈ set.nodes, v ∈ set'.nodes := by
    intro v hv
    obtain ⟨hlt, w, hne, hvw, hwv⟩ := (h.mem_nodes hg).mp hv
    have hw := h.mem_nodes_of_linked hg hv hvw hwv
    exact (h'.mem_nodes hg).mpr ⟨hlt, w, hne, h.reachesAvoiding hg havoid hv hvw hwv,
      h.reachesAvoiding hg havoid hw hwv hvw⟩
  refine ⟨fun v => ⟨h.nodes_subset hg h' hsub, hnodes v⟩,
    fun e => ⟨h.edges_subset hg h' hsub, fun he => ?_⟩⟩
  obtain ⟨hout, hnode, w, hw, hback⟩ := (h.mem_edges hg).mp he
  have hstep : g.ReachesAvoiding excluded e.node w := .single ⟨e.edge, hw, hout⟩
  have hend := h.mem_nodes_of_linked hg hnode hstep hback
  exact (h'.mem_edges hg).mpr ⟨havoid e he, hnodes _ hnode, w, hw,
    h.reachesAvoiding hg havoid hend hback hstep⟩

/-- Leaving out all edges on cycles leaves no cycle. -/
theorem Restored.eq_empty (hg : g.Closed) (h : g.Restored excluded set)
    (h' : g.Restored more set') (hsub : ∀ e ∈ excluded, e ∈ more)
    (hall : ∀ e ∈ set.edges, e ∈ more) : set' = ⟨[], []⟩ := by
  have hedges : ∀ e, e ∉ set'.edges := fun e he =>
    ((h'.mem_edges hg).mp he).1 (hall e (h.edges_subset hg h' hsub he))
  have hnodes : ∀ v, v ∉ set'.nodes := fun v hv => by
    obtain ⟨i, hi⟩ := h'.exists_edge hg hv
    exact hedges _ hi
  cases set'
  rw [CycleSet.mk.injEq]
  exact ⟨List.eq_nil_iff_forall_not_mem.mpr hnodes, List.eq_nil_iff_forall_not_mem.mpr hedges⟩

/-! ### The names that are shown -/

/-- The names of the edges on cycles are read back as edges that the graph has. -/
theorem Restored.names_accepted {lock : Graph} (hlock : lock.Sound) (hwords : lock.Addressable)
    (h : lock.digraph.Restored excluded set) :
    List.Forall₂ (fun name e => EdgeId.parse name = .ok e ∧ checkEdge lock e = .ok ())
      (set.edges.map EdgeId.text) set.edges := by
  rw [List.forall₂_map_left_iff, List.forall₂_same]
  intro e he
  obtain ⟨_, _, w, hw, _⟩ := (h.mem_edges hlock.digraph_closed).mp he
  have htarget : lock.targetAt e = .ok w := Graph.targetAt_eq_ok_iff.mpr hw
  obtain ⟨targets, htargets, hposition⟩ := Graph.targetAt_eq_ok_iff_exists.mp htarget
  have hnode := hlock.node_lt htarget
  have hedge := (List.getElem?_eq_some_iff.mp hposition).1
  have hdegree := hwords.edges targets (Array.mem_toList_iff.mpr (Array.mem_of_getElem? htargets))
  exact ⟨EdgeId.parse_text (Nat.lt_of_lt_of_le hnode hwords.nodes)
    (Nat.lt_of_lt_of_le hedge hdegree), (CommandLine.checkEdge_eq_ok_iff hlock).mpr ⟨w, htarget⟩⟩

/-! ### Leaving more out -/

/-- **Leaving more edges out only takes cycles away, and only edges on cycles matter.** When the
edges of a closed graph that are left out are among those that are left out next, then the nodes and
edges on cycles afterwards were on cycles before. No edge that is left out is on a cycle. If no edge
that is newly left out was on a cycle, then the cycles have the same nodes and edges; if all edges
that were on cycles are left out, then there are no cycles. The names of edges that are shown for a
lock graph that passes the check are read back as edges that it has. -/
theorem exclusion_antitone (g : Digraph) (hg : g.Closed) (excluded more : List EdgeId)
    (hsub : ∀ e ∈ excluded, e ∈ more) :
    ∃ set set', g.CyclesWithout excluded set ∧ g.CyclesWithout more set' ∧
      (∀ v ∈ set'.nodes, v ∈ set.nodes) ∧ (∀ e ∈ set'.edges, e ∈ set.edges) ∧
      (∀ e ∈ excluded, e ∉ set.edges) ∧
      ((∀ e ∈ more, e ∉ excluded → e ∉ set.edges) →
        (∀ v, v ∈ set'.nodes ↔ v ∈ set.nodes) ∧ ∀ e, e ∈ set'.edges ↔ e ∈ set.edges) ∧
      ((∀ e ∈ set.edges, e ∈ more) → set' = ⟨[], []⟩) ∧
      ∀ lock : Graph, lock.check = .ok () → lock.Addressable → lock.digraph = g →
        ∃ nodes edges : List String,
          set.document = Json.indentedObject "" [
            ("nodes", Json.indentedArray "  " (nodes.map Json.quote)),
            ("edges", Json.indentedArray "  " (edges.map Json.quote))] ∧
          List.Forall₂ (fun name e => EdgeId.parse name = .ok e ∧ checkEdge lock e = .ok ())
            edges set.edges := by
  obtain ⟨set, hset, h⟩ := exists_cyclesWithout hg excluded
  obtain ⟨set', hset', h'⟩ := exists_cyclesWithout hg more
  have hexcluded : ∀ e ∈ set.edges, e ∉ excluded := fun e he => ((h.mem_edges hg).mp he).1
  refine ⟨set, set', hset, hset', fun v => h.nodes_subset hg h' hsub,
    fun e => h.edges_subset hg h' hsub, fun e he hmem => hexcluded e hmem he, fun hnew => ?_,
    h.eq_empty hg h' hsub, ?_⟩
  · -- an edge on a cycle was not left out before, and is not one of those left out next
    exact h.iff_of_avoid hg h' hsub fun e he hmem => hnew e hmem (hexcluded e he) he
  · rintro lock hlock hwords rfl
    refine ⟨set.nodes.map nodeName, set.edges.map EdgeId.text, ?_,
      h.names_accepted (Graph.check_eq_ok_iff.mp hlock) hwords⟩
    simp only [CycleSet.document, List.map_map]
    rfl

/-- Two cycles that share a node. An edge of one of them is left out, and next its other edge and an
edge of the other cycle. -/
theorem exclusion_antitone_eight :
    let lock : Graph := ⟨#["a", "b", "c"], #[[⟨[]⟩, ⟨[]⟩], [⟨[]⟩], [⟨[]⟩]], #[[1, 2], [0], [0]],
      ⟨⟨#[]⟩, ⟨#[]⟩⟩⟩
    lock.check = .ok () ∧ lock.Addressable ∧ lock.digraph.Closed ∧
      ∃ set set', lock.digraph.CyclesWithout [⟨0, 0⟩] set ∧
        lock.digraph.CyclesWithout [⟨0, 0⟩, ⟨1, 0⟩, ⟨2, 0⟩] set' ∧
        (∀ e ∈ set'.edges, e ∈ set.edges) ∧ ⟨0, 0⟩ ∉ set.edges ∧
        ∃ nodes edges : List String,
          set.document = Json.indentedObject "" [
            ("nodes", Json.indentedArray "  " (nodes.map Json.quote)),
            ("edges", Json.indentedArray "  " (edges.map Json.quote))] ∧
          List.Forall₂ (fun name e => EdgeId.parse name = .ok e ∧ checkEdge lock e = .ok ())
            edges set.edges := by
  intro lock
  have hg : lock.digraph.Closed := check_eq_ok_iff.mp rfl
  have hwords : lock.Addressable := ⟨by decide, by decide⟩
  obtain ⟨set, set', hset, hset', _, hedges, hout, _, _, hnames⟩ :=
    exclusion_antitone lock.digraph hg [⟨0, 0⟩] [⟨0, 0⟩, ⟨1, 0⟩, ⟨2, 0⟩] (by decide)
  exact ⟨rfl, hwords, hg, set, set', hset, hset', hedges, hout _ List.mem_cons_self,
    hnames lock rfl hwords rfl⟩

end Digraph

end LockOrder
