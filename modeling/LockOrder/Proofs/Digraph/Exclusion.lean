import LockOrder.Digraph.Exclusion
import LockOrder.Proofs.Digraph.Cycles

/-!
# Leaving edges out

A closed graph without some of its edges is closed. The edges that are left are those that are not
excluded, in their order, and each of them remembers where it stood; so the cycles of what is left
can be named by edges of the whole graph.

## Main definitions

* `Digraph.without` — the view that leaving edges out of a closed graph gives
* `Digraph.Restored` — the cycles of the view, with the edges that its edges stand for

## Main results

* `Digraph.exclude_eq_ok` — edges can be left out of a closed graph
* `Digraph.exists_restore_without` — the edge behind an edge of the view
* `Digraph.exists_restored` — the cycles of the view can be named by edges of the whole graph
* `Digraph.exists_survey_without` — none of these edges is excluded
-/

namespace LockOrder.Digraph

variable {g : Digraph} {excluded : List EdgeId} {u v w : Nat} {e : EdgeId}

/-- The edges of a node that are left, with their targets and positions. -/
def left (g : Digraph) (excluded : List EdgeId) (v : Nat) : List (Nat × Nat) :=
  remaining excluded v (g.targets v)

theorem mem_left {i : Nat} :
    (w, i) ∈ g.left excluded v ↔ (g.targets v)[i]? = some w ∧ ⟨v, i⟩ ∉ excluded := by
  simp [left, remaining, List.mem_zipIdx_iff_getElem?]

/-- A graph without some of its edges. -/
def without (g : Digraph) (excluded : List EdgeId) : Exclusion where
  graph := .ofLists ((List.range g.order).map fun v => (g.left excluded v).map Prod.fst)
  positions := ((List.range g.order).map fun v => (g.left excluded v).map Prod.snd).toArray

theorem exclude_eq_ok (hg : g.Closed) (excluded : List EdgeId) :
    g.exclude excluded = .ok (g.without excluded) := by
  have hkept : (List.range g.order).mapM
      (fun v => do return remaining excluded v (← g.out v)) =
        (.ok ((List.range g.order).map (g.left excluded)) : Except Fault _) := by
    refine Outcome.mapM_eq_ok_map fun v hv => ?_
    rw [out_eq_ok_iff.mpr ⟨Nat.lt_of_lt_of_le (List.mem_range.mp hv) hg.listed, rfl⟩]
    rfl
  rw [exclude, hkept]
  simp only [without, bind, Except.bind, pure, Except.pure, List.map_map, Function.comp_def]

@[simp]
theorem order_without : (g.without excluded).graph.order = g.order := by
  simp [without, ofLists]

theorem targets_without (hv : v < g.order) :
    (g.without excluded).graph.targets v = (g.left excluded v).map Prod.fst := by
  simp [without, ofLists, targets, hv]

theorem step_of_step_without (hu : u < g.order) (h : (g.without excluded).graph.Step u v) :
    g.Step u v := by
  rw [Step, targets_without hu, List.mem_map] at h
  obtain ⟨⟨w, i⟩, hmem, rfl⟩ := h
  exact List.mem_of_getElem? (mem_left.mp hmem).1

/-- Leaving edges out of a closed graph leaves a closed graph. -/
theorem closed_without (hg : g.Closed) : (g.without excluded).graph.Closed := by
  refine ⟨by simp [without, ofLists], fun u hu v hv => ?_⟩
  rw [order_without] at hu ⊢
  exact hg.inside u hu v (step_of_step_without hu hv)

/-- The edge of the whole graph behind an edge of the view. -/
theorem restore_without {i : Nat} (he : e.node < g.order)
    (hleft : (g.left excluded e.node)[e.edge]? = some (w, i)) :
    (g.without excluded).restore e = .ok ⟨e.node, i⟩ := by
  have hpositions : arrayAt (g.without excluded).positions e.node =
      .ok ((g.left excluded e.node).map Prod.snd) := by
    rw [arrayAt_eq_ok_iff]
    simp [without, he]
  have hposition : listAt ((g.left excluded e.node).map Prod.snd) e.edge = .ok i := by
    rw [listAt_eq_ok_iff, List.getElem?_map, hleft]
    rfl
  simp only [Exclusion.restore, hpositions, hposition, bind, Except.bind]
  rfl

/-- Every edge of the view stands for an edge of the whole graph that is not excluded. -/
theorem exists_restore_without (he : e.node < g.order)
    (hw : ((g.without excluded).graph.targets e.node)[e.edge]? = some w) :
    ∃ i, (g.without excluded).restore e = .ok ⟨e.node, i⟩ ∧
      (g.targets e.node)[i]? = some w ∧ ⟨e.node, i⟩ ∉ excluded := by
  rw [targets_without he, List.getElem?_map, Option.map_eq_some_iff] at hw
  obtain ⟨⟨w, i⟩, hleft, rfl⟩ := hw
  obtain ⟨htarget, hout⟩ := mem_left.mp (List.mem_of_getElem? hleft)
  exact ⟨i, restore_without he hleft, htarget, hout⟩

theorem survey_eq_ok (hg : g.Closed) :
    ∃ event, g.survey = .ok (g.cyclesIn g.componentsOf, event) :=
  ⟨_, by rw [survey, components_eq_ok hg]; rfl⟩

/-- The nodes are those on cycles of the view, and the edges are those that the edges on cycles of
the view stand for. -/
def Restored (g : Digraph) (excluded : List EdgeId) (set : CycleSet) : Prop :=
  set.nodes = cyclicNodes (g.without excluded).graph.componentsOf ∧
    List.Forall₂ (fun e e' => (g.without excluded).restore e = .ok e')
      ((g.without excluded).graph.cyclesIn (g.without excluded).graph.componentsOf).edges set.edges

/-- An edge on a cycle of the view stands for an edge that is left. -/
theorem exists_restore_cycleEdge (hg : g.Closed)
    (he : e ∈ ((g.without excluded).graph.cyclesIn
      (g.without excluded).graph.componentsOf).edges) :
    ∃ e', (g.without excluded).restore e = .ok e' ∧
      (∃ w, (g.targets e'.node)[e'.edge]? = some w) ∧ e' ∉ excluded := by
  have hclosed : (g.without excluded).graph.Closed := closed_without hg
  obtain ⟨hnode, w, hw, _⟩ := (mem_cycleEdges hclosed).mp he
  have hlt : e.node < g.order := order_without ▸ ((mem_cyclicNodes hclosed).mp hnode).1
  obtain ⟨i, hi, htarget, hout⟩ := exists_restore_without hlt hw
  exact ⟨⟨e.node, i⟩, hi, ⟨w, htarget⟩, hout⟩

/-- The cycles of what is left can be named by edges of the whole graph. -/
theorem exists_restored (hg : g.Closed) (excluded : List EdgeId) :
    ∃ set event, (g.without excluded).graph.cycles >>= (g.without excluded).restoreAll = .ok set ∧
      (g.without excluded).survey = .ok (set, event) ∧ g.Restored excluded set := by
  have hclosed : (g.without excluded).graph.Closed := closed_without hg
  obtain ⟨event, hsurvey⟩ := survey_eq_ok hclosed
  obtain ⟨edges, hedges⟩ := Outcome.exists_mapM_eq_ok fun e he =>
    (exists_restore_cycleEdge hg he).imp fun _ => And.left
  refine ⟨⟨cyclicNodes (g.without excluded).graph.componentsOf, edges⟩, event, ?_, ?_, rfl,
    Outcome.mapM_eq_ok_iff.mp hedges⟩
  · rw [cycles_eq_ok hclosed]
    simp only [Exclusion.restoreAll, hedges, bind, Except.bind]
    rfl
  · simp only [Exclusion.survey, Exclusion.restoreAll, hsurvey, hedges, bind, Except.bind]
    rfl

/-- None of the edges that name the cycles of what is left is excluded. -/
theorem exists_survey_without (hg : g.Closed) (excluded : List EdgeId) :
    ∃ set event, (g.without excluded).survey = .ok (set, event) ∧
      ∀ e ∈ set.edges, (∃ w, (g.targets e.node)[e.edge]? = some w) ∧ e ∉ excluded := by
  obtain ⟨set, event, _, hsurvey, _, hedges⟩ := exists_restored hg excluded
  refine ⟨set, event, hsurvey, fun e' he' => ?_⟩
  obtain ⟨e, he, hok⟩ := Outcome.exists_left_of_forall₂ hedges he'
  obtain ⟨e'', hok', hfacts⟩ := exists_restore_cycleEdge hg he
  rwa [Except.ok.inj (hok.symm.trans hok')]

end LockOrder.Digraph
