import LockOrder.Proofs.Digraph.ClosedWalk
import LockOrder.Proofs.Digraph.Exclusion
import LockOrder.Proofs.Graph.Restrict

/-!
# Walks that avoid edges

Leaving edges out of a graph leaves the walks that avoid them. The view numbers the remaining edges
of a node anew, so its edges and those of the whole graph that are not excluded correspond one to
one, in order, with the same ends. The cycles of the view, once its edges have their old names, are
therefore the cycles of walks that avoid the excluded edges.

The view of a lock graph is the projection onto all nodes and the edges that are left. If nothing is
left out, then the analysis sees the same successors as before and comes to the same result.

## Main definitions

* `Digraph.StepAvoiding`, `Digraph.ReachesAvoiding`, `Digraph.ClosedWalkAvoiding` — steps,
  reachability and closed walks by edges that are not excluded
* `Digraph.edgeIds` — the names of the edges

## Main results

* `Digraph.forall₂_restore` — the edges of the view and the edges that are left
* `Digraph.cyclesIn_congr` — the analysis looks at the successors of nodes only
* `Digraph.Restored.mem_nodes_iff_closedWalk`, `Digraph.Restored.mem_edges` — the cycles of the view
* `Digraph.cycles_without_eq_closedWalks` — the view of a graph, and its cycles
-/

namespace LockOrder

open Relation

/-- Elements of which each determines the other one stand side by side in one way only. -/
theorem eq_of_forall₂_of_nodup {α β : Type} {r : α → β → Prop} (hr : Relator.RightUnique r)
    {xs : List α} {ys : List β} (h : List.Forall₂ r xs ys) (hys : ys.Nodup) {x x' : α} {y : β}
    (hx : x ∈ xs) (hx' : x' ∈ xs) (hxy : r x y) (hxy' : r x' y) : x = x' := by
  obtain ⟨i, hi⟩ := List.mem_iff_getElem?.mp hx
  obtain ⟨j, hj⟩ := List.mem_iff_getElem?.mp hx'
  obtain ⟨z, hz, hxz⟩ := exists_getElem?_of_forall₂ h hi
  obtain ⟨z', hz', hxz'⟩ := exists_getElem?_of_forall₂ h hj
  obtain rfl := hr hxy hxz
  obtain rfl := hr hxy' hxz'
  -- both stand beside `y`, which has one place only
  have hlt : i < ys.length := (List.getElem?_eq_some_iff.mp hz).1
  obtain rfl := (List.getElem?_inj hlt hys).mp (hz.trans hz'.symm)
  exact Option.some.inj (hi.symm.trans hj)

namespace Digraph

variable {g g' : Digraph} {excluded : List EdgeId} {walk : List Nat} {u v w : Nat} {e : EdgeId}

/-- An edge that is not excluded leads from `u` to `v`. -/
def StepAvoiding (g : Digraph) (excluded : List EdgeId) (u v : Nat) : Prop :=
  ∃ i, (g.targets u)[i]? = some v ∧ ⟨u, i⟩ ∉ excluded

/-- A walk along edges that are not excluded leads from `u` to `v`. -/
def ReachesAvoiding (g : Digraph) (excluded : List EdgeId) (u v : Nat) : Prop :=
  ReflTransGen (g.StepAvoiding excluded) u v

/-- A list of nodes of which each leads to the next one by an edge that is not excluded, and the
last one is the first again. -/
structure ClosedWalkAvoiding (g : Digraph) (excluded : List EdgeId) (walk : List Nat) : Prop where
  /-- The walk stays in the graph. -/
  inside : ∀ v ∈ walk, v < g.order
  /-- Each node leads to the next one. -/
  chain : walk.IsChain (g.StepAvoiding excluded)
  /-- The walk ends where it starts. -/
  closes : walk.head? = walk.getLast?

/-! ### The names of the edges -/

/-- The names of the edges, ordered by source node and then by position. -/
def edgeIds (g : Digraph) : List EdgeId := (List.range g.order).flatMap g.edgesFrom

theorem mem_edgeIds : e ∈ g.edgeIds ↔ e.node < g.order ∧ e.edge < (g.targets e.node).length := by
  simp only [edgeIds, List.mem_flatMap, List.mem_range, mem_edgesFrom]
  constructor
  · rintro ⟨v, hv, rfl, hedge⟩
    exact ⟨hv, hedge⟩
  · rintro ⟨hnode, hedge⟩
    exact ⟨e.node, hnode, rfl, hedge⟩

theorem nodup_edgeIds (g : Digraph) : g.edgeIds.Nodup := by
  have hposition : ∀ v, Function.Injective fun i => (⟨v, i⟩ : EdgeId) := fun v i j h =>
    (EdgeId.mk.inj h).2
  refine List.nodup_flatMap.mpr ⟨fun v _ => List.nodup_range.map (hposition v), ?_⟩
  refine List.nodup_range.imp fun {u v} hne e hu hv => ?_
  exact hne ((mem_edgesFrom.mp hu).1.symm.trans (mem_edgesFrom.mp hv).1)

/-! ### The edges of the view -/

/-- The edges of a node that are left have the names that are not excluded. -/
theorem filter_edgesFrom :
    (g.edgesFrom v).filter (· ∉ excluded) = (g.left excluded v).map fun edge => ⟨v, edge.2⟩ := by
  rw [edgesFrom_eq_map_zipIdx, List.filter_map, left, remaining]
  congr 2
  funext edge
  simp

/-- The edges of the view at a node stand for those that are left there. -/
theorem forall₂_restore_edgesFrom (hv : v < g.order) :
    List.Forall₂ (fun e e' => (g.without excluded).restore e = .ok e')
      ((g.without excluded).graph.edgesFrom v) ((g.edgesFrom v).filter (· ∉ excluded)) := by
  rw [filter_edgesFrom, edgesFrom, targets_without hv, List.length_map, List.forall₂_map_left_iff,
    List.forall₂_map_right_iff]
  refine forall₂_range fun i edge hedge => ?_
  exact restore_without (e := ⟨v, i⟩) hv hedge

/-- The edges of the view stand for those that are left, in order. -/
theorem forall₂_restore (g : Digraph) (excluded : List EdgeId) :
    List.Forall₂ (fun e e' => (g.without excluded).restore e = .ok e')
      (g.without excluded).graph.edgeIds (g.edgeIds.filter (· ∉ excluded)) := by
  rw [edgeIds, edgeIds, List.filter_flatMap, order_without]
  apply forall₂_flatMap
  intro v hv
  exact forall₂_restore_edgesFrom (List.mem_range.mp hv)

/-- An edge of the view and the edge that it stands for have the same ends. -/
theorem exists_restore_ends (he : e ∈ (g.without excluded).graph.edgeIds) :
    ∃ e', (g.without excluded).restore e = .ok e' ∧ e'.node = e.node ∧
      ((g.without excluded).graph.targets e.node)[e.edge]? = (g.targets e'.node)[e'.edge]? := by
  obtain ⟨hnode, hedge⟩ := mem_edgeIds.mp he
  rw [order_without] at hnode
  have hw := List.getElem?_eq_getElem hedge
  obtain ⟨i, hrestore, htarget, _⟩ := exists_restore_without hnode hw
  exact ⟨⟨e.node, i⟩, hrestore, rfl, hw.trans htarget.symm⟩

/-- Different edges of the view stand for different edges. -/
theorem restore_injective {e e' : EdgeId} (he : e ∈ (g.without excluded).graph.edgeIds)
    (he' : e' ∈ (g.without excluded).graph.edgeIds)
    (heq : (g.without excluded).restore e = (g.without excluded).restore e') : e = e' := by
  obtain ⟨name, hname, _⟩ := exists_restore_ends he
  exact eq_of_forall₂_of_nodup (Outcome.rightUnique_ok _) (forall₂_restore g excluded)
    (g.nodup_edgeIds.filter _) he he' hname (heq ▸ hname)

/-! ### The walks of the view -/

theorem step_without_iff (hu : u < g.order) :
    (g.without excluded).graph.Step u v ↔ g.StepAvoiding excluded u v := by
  rw [Step, targets_without hu, List.mem_map]
  constructor
  · rintro ⟨⟨v, i⟩, hleft, rfl⟩
    exact ⟨i, mem_left.mp hleft⟩
  · rintro ⟨i, hi⟩
    exact ⟨(v, i), mem_left.mpr hi, rfl⟩

/-- The view has the walks that avoid the excluded edges. -/
theorem reaches_without_iff (hg : g.Closed) (hu : u < g.order) :
    (g.without excluded).graph.Reaches u v ↔ g.ReachesAvoiding excluded u v := by
  have hclosed : (g.without excluded).graph.Closed := closed_without hg
  constructor
  · intro huv
    induction huv with
    | refl => exact .refl
    | tail hpath hstep ih =>
      have hmid := hclosed.reaches_lt (order_without.symm ▸ hu) hpath
      rw [order_without] at hmid
      exact ih.tail ((step_without_iff hmid).mp hstep)
  · intro huv
    induction huv with
    | refl => exact .refl
    | tail _ hstep ih =>
      have hmid := hclosed.reaches_lt (order_without.symm ▸ hu) ih
      rw [order_without] at hmid
      exact ReflTransGen.tail ih ((step_without_iff hmid).mpr hstep)

theorem ReachesAvoiding.lt (hg : g.Closed) (hu : u < g.order)
    (huv : g.ReachesAvoiding excluded u v) : v < g.order := by
  have hreach := (reaches_without_iff hg hu).mpr huv
  exact order_without ▸ (closed_without hg).reaches_lt (order_without.symm ▸ hu) hreach

theorem closedWalk_without_iff :
    (g.without excluded).graph.ClosedWalk walk ↔ g.ClosedWalkAvoiding excluded walk := by
  have hchain : (∀ v ∈ walk, v < g.order) →
      (walk.IsChain (g.without excluded).graph.Step ↔ walk.IsChain (g.StepAvoiding excluded)) :=
    fun hinside => List.IsChain.iff_of_mem_imp fun u v hu _ => step_without_iff (hinside u hu)
  constructor
  · rintro ⟨hinside, hsteps, hcloses⟩
    rw [order_without] at hinside
    exact ⟨hinside, (hchain hinside).mp hsteps, hcloses⟩
  · rintro ⟨hinside, hsteps, hcloses⟩
    exact ⟨order_without.symm ▸ hinside, (hchain hinside).mpr hsteps, hcloses⟩

/-! ### What the analysis looks at -/

/-- Floods look at the successors of nodes only. -/
theorem flood_congr (c : Nat) (stack : List Nat) (labels : Array (Option Nat))
    (htargets : ∀ v < labels.size, g.targets v = g'.targets v) :
    flood g c stack labels = flood g' c stack labels := by
  induction stack, labels using flood.induct g c with
  | case1 labels => rw [flood_nil, flood_nil]
  | case2 v stack labels hv ih =>
    -- the only successors that are looked up are those of a node with a place among the labels
    have hlt : v < labels.size := (Array.getElem?_eq_some_iff.mp hv).1
    rw [flood_cons_of_none hv, flood_cons_of_none hv, ← htargets v hlt]
    apply ih
    rwa [Array.size_setIfInBounds]
  | case3 v stack labels hv ih =>
    rw [flood_cons_of_ne hv, flood_cons_of_ne hv]
    exact ih htargets

theorem labelAll_congr (roots : List Nat) (c : Nat) (labels : Array (Option Nat))
    (htargets : ∀ v < labels.size, g.targets v = g'.targets v) :
    labelAll g roots c labels = labelAll g' roots c labels := by
  induction roots generalizing c labels with
  | nil => rfl
  | cons v roots ih =>
    rw [labelAll, labelAll]
    split
    · rw [flood_congr c [v] labels htargets]
      apply ih
      rwa [(flooded_flood g' c [v] labels).size_eq]
    · exact ih c labels htargets

/-- Graphs whose nodes have the same successors have the same components. -/
theorem componentsOf_congr (horder : g.order = g'.order)
    (htargets : ∀ v < g.order, g.targets v = g'.targets v) : g.componentsOf = g'.componentsOf := by
  have harcs : g.arcs = g'.arcs := by
    rw [arcs, arcs, ← horder]
    apply List.flatMap_congr
    intro u hu
    rw [htargets u (List.mem_range.mp hu)]
  have hfinish : g.finishOrder = g'.finishOrder := by
    rw [finishOrder, finishOrder, predecessors, predecessors, harcs, horder]
  have hlabels : labelAll g g.finishOrder 0 (Array.replicate g.order none) =
      labelAll g' g'.finishOrder 0 (Array.replicate g'.order none) := by
    rw [hfinish, horder]
    apply labelAll_congr
    simpa [← horder] using htargets
  rw [componentsOf, componentsOf, hlabels]

/-- Graphs whose nodes have the same successors have the same cycles. -/
theorem cyclesIn_congr (hg : g.Closed) (horder : g.order = g'.order)
    (htargets : ∀ v < g.order, g.targets v = g'.targets v) :
    g.cyclesIn g.componentsOf = g'.cyclesIn g'.componentsOf := by
  rw [← componentsOf_congr horder htargets, cyclesIn, cyclesIn, CycleSet.mk.injEq]
  refine ⟨rfl, List.flatMap_congr fun v hv => ?_⟩
  rw [innerEdges, innerEdges, htargets v ((mem_cyclicNodes hg).mp hv).1]

/-! ### The cycles of the view -/

section Restored

variable {set : CycleSet}

/-- The cycles of the view pass through the nodes that reach another one and are reached from there
by edges that are not excluded. -/
theorem Restored.mem_nodes (hg : g.Closed) (h : g.Restored excluded set) :
    v ∈ set.nodes ↔ v < g.order ∧ ∃ w, w ≠ v ∧
      g.ReachesAvoiding excluded v w ∧ g.ReachesAvoiding excluded w v := by
  have hclosed : (g.without excluded).graph.Closed := closed_without hg
  rw [h.1, mem_cyclicNodes hclosed, order_without]
  refine and_congr_right fun hv => exists_congr fun w => and_congr_right fun _ => ?_
  -- a node that is reached is a node of the graph, so the way back is one of the view too
  rw [Linked, reaches_without_iff hg hv]
  exact and_congr_right fun hvw => reaches_without_iff hg (hvw.lt hg hv)

theorem Restored.mem_nodes_iff_closedWalk (hg : g.Closed) (h : g.Restored excluded set) :
    v ∈ set.nodes ↔ ∃ walk, g.ClosedWalkAvoiding excluded walk ∧ v ∈ walk ∧
      ∃ u ∈ walk, ∃ w ∈ walk, u ≠ w := by
  rw [h.1, mem_cyclicNodes_iff_closedWalk (closed_without hg)]
  simp only [closedWalk_without_iff]

/-- The cycles of the view take the edges that are not excluded, start at a node on a cycle and can
be walked back by such edges. -/
theorem Restored.mem_edges (hg : g.Closed) (h : g.Restored excluded set) :
    e ∈ set.edges ↔ e ∉ excluded ∧ e.node ∈ set.nodes ∧
      ∃ w, (g.targets e.node)[e.edge]? = some w ∧ g.ReachesAvoiding excluded w e.node := by
  have hclosed : (g.without excluded).graph.Closed := closed_without hg
  have hnode_lt : ∀ {v}, v ∈ cyclicNodes (g.without excluded).graph.componentsOf → v < g.order :=
    fun hv => order_without ▸ ((mem_cyclicNodes hclosed).mp hv).1
  constructor
  · intro he
    obtain ⟨inner, hinner, hrestore⟩ := Outcome.exists_left_of_forall₂ h.2 he
    obtain ⟨hnode, w, hw, hback⟩ := (mem_cycleEdges hclosed).mp hinner
    have hlt := hnode_lt hnode
    obtain ⟨i, hi, htarget, hout⟩ := exists_restore_without hlt hw
    obtain rfl := Except.ok.inj (hrestore.symm.trans hi)
    have hwlt := hg.inside _ hlt w (List.mem_of_getElem? htarget)
    exact ⟨hout, h.1.symm ▸ hnode, w, htarget, (reaches_without_iff hg hwlt).mp hback⟩
  · rintro ⟨hout, hnode, w, hw, hback⟩
    rw [h.1] at hnode
    have hlt := hnode_lt hnode
    have hwlt := hg.inside _ hlt w (List.mem_of_getElem? hw)
    -- the edge is left, and stands at some position of the view
    obtain ⟨k, hk⟩ := List.mem_iff_getElem?.mp (mem_left.mpr ⟨hw, hout⟩)
    have hinner : (⟨e.node, k⟩ : EdgeId) ∈
        ((g.without excluded).graph.cyclesIn (g.without excluded).graph.componentsOf).edges := by
      refine (mem_cycleEdges hclosed).mpr ⟨hnode, w, ?_, (reaches_without_iff hg hwlt).mpr hback⟩
      rw [targets_without hlt, List.getElem?_map, hk]
      rfl
    obtain ⟨e', he', hrestore⟩ := Outcome.exists_right_of_forall₂ h.2 hinner
    rw [restore_without (e := ⟨e.node, k⟩) hlt hk] at hrestore
    obtain rfl := Except.ok.inj hrestore
    exact he'

/-- Names of edges that the graph does not have leave the edges of a node as they are. -/
theorem left_eq_zipIdx (hout : ∀ e ∈ excluded, e ∉ g.edgeIds) (hv : v < g.order) :
    g.left excluded v = (g.targets v).zipIdx := by
  rw [left, remaining, List.filter_eq_self]
  rintro ⟨w, i⟩ hedge
  have hi := (List.getElem?_eq_some_iff.mp (List.mem_zipIdx_iff_getElem?.mp hedge)).1
  have hnot : (⟨v, i⟩ : EdgeId) ∉ excluded := fun hmem =>
    hout _ hmem (mem_edgeIds.mpr ⟨hv, hi⟩)
  simpa using hnot

/-- If nothing is left out, then the cycles of the view are those of the graph. -/
theorem Restored.eq_cyclesIn (hg : g.Closed) (h : g.Restored excluded set)
    (hout : ∀ e ∈ excluded, e ∉ g.edgeIds) : set = g.cyclesIn g.componentsOf := by
  have hclosed : (g.without excluded).graph.Closed := closed_without hg
  have hcycles : (g.without excluded).graph.cyclesIn (g.without excluded).graph.componentsOf =
      g.cyclesIn g.componentsOf := by
    refine cyclesIn_congr hclosed order_without fun v hv => ?_
    rw [order_without] at hv
    rw [targets_without hv, left_eq_zipIdx hout hv, List.zipIdx_map_fst]
  -- every edge stands for the edge of the same name
  have hsame : ∀ e ∈ (g.cyclesIn g.componentsOf).edges,
      (g.without excluded).restore e = .ok e := by
    intro e he
    obtain ⟨hnode, w, hw, _⟩ := (mem_cycleEdges hg).mp he
    have hlt := ((mem_cyclicNodes hg).mp hnode).1
    have hplace : (g.left excluded e.node)[e.edge]? = some (w, e.edge) := by
      simp [left_eq_zipIdx hout hlt, hw]
    exact restore_without hlt hplace
  obtain ⟨hnodes, hedges⟩ := h
  rw [hcycles] at hedges
  have hedges := List.right_unique_forall₂' (Outcome.rightUnique_ok _) hedges
    (List.forall₂_same.mpr hsame)
  cases set
  rw [CycleSet.mk.injEq]
  exact ⟨hnodes.trans (congrArg CycleSet.nodes hcycles), hedges⟩

end Restored

/-! ### The view of a lock graph -/

/-- The listed edges at a place, of a list without some of its members. -/
theorem listedAt_filter (nodes : List Nat) (edges : List EdgeId) (keep : EdgeId → Bool) (i : Nat) :
    Graph.listedAt nodes (edges.filter keep) i = (Graph.listedAt nodes edges i).filter keep := by
  rw [Graph.listedAt, Graph.listedAt, List.filter_comm]

/-- The view of a sound graph is its projection onto all nodes and the edges that are left. -/
theorem exists_restrict_without {lock : Graph} (hlock : lock.Sound) (excluded : List EdgeId) :
    ∃ h, lock.restrict (List.range lock.nodeCount) (lock.edgeIds.filter (· ∉ excluded)) = .ok h ∧
      h.digraph = (lock.digraph.without excluded).graph := by
  obtain ⟨h, hh⟩ : ∃ h, lock.restrict (List.range lock.nodeCount)
      (lock.edgeIds.filter (· ∉ excluded)) = .ok h := by
    refine hlock.exists_restrict (fun v hv => List.mem_range.mp hv) fun e he => ?_
    obtain ⟨t, ht⟩ := Graph.mem_edgeIds.mp (List.mem_of_mem_filter he)
    exact ⟨List.mem_range.mpr (hlock.node_lt ht), t, List.mem_range.mpr (hlock.target_lt ht), ht⟩
  have hcount := Graph.nodeCount_restrict hh
  have hsize := (Graph.sizes_restrict hh).2
  rw [List.length_range] at hcount hsize
  have horder : (lock.digraph.without excluded).graph.order = lock.nodeCount := order_without
  have hsuccessors : (lock.digraph.without excluded).graph.successors.size = lock.nodeCount := by
    simp [without, ofLists, Graph.digraph]
  have htargets : h.targets = (lock.digraph.without excluded).graph.successors := by
    -- both lists of a place belong to the edges that are left there
    refine Graph.array_eq_of_forall₂ (Outcome.rightUnique_ok lock.targetAt)
      (fun i => (lock.digraph.edgesFrom i).filter (· ∉ excluded)) (hsize.trans hsuccessors.symm)
      (fun i ts hts => ?_) fun i ts hts => ?_
    · have hi : i < lock.nodeCount := hsize ▸ (Array.getElem?_eq_some_iff.mp hts).1
      have hlisted := Graph.forall₂_targets_restrict hh hts
      rw [listedAt_filter, hlock.listedAt_edgeIds hi] at hlisted
      exact hlisted.imp fun e t => hlock.lands_range_iff.mp
    · have hi : i < lock.nodeCount := hsuccessors ▸ (Array.getElem?_eq_some_iff.mp hts).1
      have hleft : ts = (lock.digraph.left excluded i).map Prod.fst := by
        rw [← targets_without (g := lock.digraph) hi, targets, Array.getD_eq_getD_getElem?, hts]
        rfl
      rw [hleft, filter_edgesFrom, List.forall₂_map_left_iff, List.forall₂_map_right_iff,
        List.forall₂_same]
      rintro ⟨t, j⟩ hedge
      exact Graph.targetAt_eq_ok_iff.mpr (mem_left.mp hedge).1
  refine ⟨h, hh, ?_⟩
  rw [Graph.digraph, hcount, htargets, ← horder]

/-! ### The view of a graph -/

/-- **The cycles of a graph without some of its edges are those of walks that avoid the edges.**
Edges can be left out of any graph whose edges end in it, whether or not the names given are names
of its edges. The edges of the view stand for the edges that are not excluded, one to one and in
order, and have the same ends. Its cycles, named by these, pass through exactly the nodes of closed
walks that avoid the excluded edges and visit two nodes, and take exactly the edges that are not
excluded, start at such a node and can be walked back by edges that are not excluded. The view of a
lock graph that passes the check is the projection onto all nodes and the edges that are left; and
if no edge is excluded, then the cycles are listed as those of the graph are. -/
theorem cycles_without_eq_closedWalks (g : Digraph) (hg : g.Closed) (excluded : List EdgeId) :
    ∃ view set event, g.exclude excluded = .ok view ∧
      view.graph.cycles >>= view.restoreAll = .ok set ∧ view.survey = .ok (set, event) ∧
      view.graph.edgeIds.mapM view.restore = .ok (g.edgeIds.filter (· ∉ excluded)) ∧
      (∀ e ∈ view.graph.edgeIds, ∃ e', view.restore e = .ok e' ∧ e'.node = e.node ∧
        (view.graph.targets e.node)[e.edge]? = (g.targets e'.node)[e'.edge]?) ∧
      (∀ e ∈ view.graph.edgeIds, ∀ e' ∈ view.graph.edgeIds,
        view.restore e = view.restore e' → e = e') ∧
      (∀ v, v ∈ set.nodes ↔ ∃ walk, g.ClosedWalkAvoiding excluded walk ∧ v ∈ walk ∧
        ∃ u ∈ walk, ∃ w ∈ walk, u ≠ w) ∧
      (∀ e, e ∈ set.edges ↔ e ∉ excluded ∧ e.node ∈ set.nodes ∧
        ∃ w, (g.targets e.node)[e.edge]? = some w ∧ g.ReachesAvoiding excluded w e.node) ∧
      (∀ lock : Graph, lock.check = .ok () → lock.digraph = g →
        ∃ h, lock.restrict (List.range lock.nodeCount)
          (lock.edgeIds.filter (· ∉ excluded)) = .ok h ∧ h.digraph = view.graph) ∧
      ((∀ e ∈ excluded, e ∉ g.edgeIds) → g.cycles = .ok set) := by
  obtain ⟨set, event, hcycles, hsurvey, hrestored⟩ := exists_restored hg excluded
  refine ⟨g.without excluded, set, event, exclude_eq_ok hg excluded, hcycles, hsurvey,
    Outcome.mapM_eq_ok_iff.mpr (forall₂_restore g excluded), fun e => exists_restore_ends,
    fun e he e' => restore_injective he, fun v => hrestored.mem_nodes_iff_closedWalk hg,
    fun e => hrestored.mem_edges hg, ?lock, fun hout => ?all⟩
  case lock =>
    rintro lock hlock rfl
    exact exists_restrict_without (Graph.check_eq_ok_iff.mp hlock) excluded
  case all => rw [cycles_eq_ok hg, hrestored.eq_cyclesIn hg hout]

/-- Three parallel edges with a loop between them. Two of the four are excluded, one of them twice,
with two names of no edge; and these two names alone exclude nothing. -/
theorem cycles_without_eq_closedWalks_parallel :
    let lock : Graph := ⟨#["a", "b"], #[[⟨[]⟩, ⟨[]⟩, ⟨[]⟩, ⟨[]⟩], [⟨[]⟩]], #[[1, 0, 1, 1], [0]],
      ⟨⟨#[]⟩, ⟨#[]⟩⟩⟩
    let excluded : List EdgeId := [⟨0, 0⟩, ⟨0, 2⟩, ⟨0, 0⟩, ⟨0, 4⟩, ⟨7, 0⟩]
    lock.check = .ok () ∧ lock.digraph.Closed ∧
      (∃ view h, lock.digraph.exclude excluded = .ok view ∧
        view.graph.edgeIds.mapM view.restore = .ok [⟨0, 1⟩, ⟨0, 3⟩, ⟨1, 0⟩] ∧
        lock.restrict [0, 1] [⟨0, 1⟩, ⟨0, 3⟩, ⟨1, 0⟩] = .ok h ∧ h.digraph = view.graph) ∧
      ∃ view set event, lock.digraph.exclude [⟨0, 4⟩, ⟨7, 0⟩] = .ok view ∧
        view.survey = .ok (set, event) ∧ lock.digraph.cycles = .ok set := by
  intro lock excluded
  have hg : lock.digraph.Closed := check_eq_ok_iff.mp rfl
  obtain ⟨view, _, _, hview, _, _, hrestore, _, _, _, _, hlock, _⟩ :=
    cycles_without_eq_closedWalks lock.digraph hg excluded
  obtain ⟨h, hh, heq⟩ := hlock lock rfl rfl
  obtain ⟨view', set, event, hview', _, hsurvey, _, _, _, _, _, _, hall⟩ :=
    cycles_without_eq_closedWalks lock.digraph hg [⟨0, 4⟩, ⟨7, 0⟩]
  exact ⟨rfl, hg, ⟨view, h, hview, hrestore, hh, heq⟩, view', set, event, hview', hsurvey,
    hall (by decide)⟩

end Digraph

end LockOrder
