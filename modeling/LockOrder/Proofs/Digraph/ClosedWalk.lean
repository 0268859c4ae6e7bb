import LockOrder.Proofs.Digraph.Cycles
import Mathlib.Data.List.Chain

/-!
# Closed walks

A node lies on a non-trivial cycle when a closed walk through it visits a second node. All nodes of
a closed walk reach each other, and two nodes that reach each other lie on a closed walk, there and
back; so the nodes on non-trivial cycles are those whose component has a second member, which is
what the analysis counts.

## Main definitions

* `Digraph.ClosedWalk` — a walk that ends where it starts
* `Components.Before` — the order in which nodes on cycles are listed

## Main results

* `Digraph.ClosedWalk.linked`, `Digraph.exists_closedWalk` — closed walks and linked nodes
* `Digraph.pairwise_cycleEdges` — the order of the edges on cycles
* `Digraph.cycles_eq_closedWalks` — the analysis finds the nodes and edges of non-trivial closed
  walks, once each
-/

namespace LockOrder

open Relation

/-- The node `u` comes before `v`: its component does, or it is the lower one of the same
component. -/
def Components.Before (c : Components) (u v : Nat) : Prop :=
  ∃ i j, c.componentOf[u]? = some i ∧ c.componentOf[v]? = some j ∧ (i < j ∨ i = j ∧ u < v)

theorem Components.Before.ne {c : Components} {u v : Nat} (h : c.Before u v) : u ≠ v := by
  obtain ⟨i, j, hi, hj, hlt⟩ := h
  rintro rfl
  rw [hi, Option.some.injEq] at hj
  omega

namespace Digraph

variable {g : Digraph} {walk : List Nat} {u v w : Nat}

/-- A list of nodes of which each leads to the next one, and the last one is the first again. -/
structure ClosedWalk (g : Digraph) (walk : List Nat) : Prop where
  /-- The walk stays in the graph. -/
  inside : ∀ v ∈ walk, v < g.order
  /-- Each node leads to the next one. -/
  chain : walk.IsChain g.Step
  /-- The walk ends where it starts. -/
  closes : walk.head? = walk.getLast?

/-! ### Closed walks and linked nodes -/

/-- Every node of a closed walk reaches every other one. -/
theorem ClosedWalk.reaches (h : g.ClosedWalk walk) (hu : u ∈ walk) (hv : v ∈ walk) :
    g.Reaches u v := by
  have hne : walk ≠ [] := List.ne_nil_of_mem hu
  -- from `u` on to the end of the walk, which is its start, and from there on to `v`
  have hlast : g.Reaches u (walk.getLast hne) :=
    h.chain.backwards_induction (fun x => g.Reaches x (walk.getLast hne)) walk
      (fun _ _ => ReflTransGen.head) (fun _ => .refl) u hu
  have hhead : g.Reaches (walk.head hne) v :=
    h.chain.induction (fun x => g.Reaches (walk.head hne) x) walk
      (fun _ _ hstep hreach => ReflTransGen.tail hreach hstep) (fun _ => .refl) v hv
  have hclosed : walk.head hne = walk.getLast hne := by
    have hcloses := h.closes
    rwa [List.head?_eq_some_head hne, List.getLast?_eq_some_getLast hne, Option.some.injEq]
      at hcloses
  exact ReflTransGen.trans (hclosed ▸ hlast) hhead

theorem ClosedWalk.linked (h : g.ClosedWalk walk) (hu : u ∈ walk) (hv : v ∈ walk) :
    g.Linked u v := ⟨h.reaches hu hv, h.reaches hv hu⟩

/-- Linked nodes lie on a closed walk, there and back. -/
theorem exists_closedWalk (hg : g.Closed) (hu : u < g.order) (huv : g.Linked u v) :
    ∃ walk, g.ClosedWalk walk ∧ u ∈ walk ∧ v ∈ walk := by
  obtain ⟨there, hthere, hend⟩ := List.exists_isChain_cons_of_relationReflTransGen huv.1
  obtain ⟨back, hback, hreturn⟩ := List.exists_isChain_cons_of_relationReflTransGen huv.2
  have hend? : (u :: there).getLast? = some v := hend ▸ List.getLast?_eq_some_getLast _
  have hchain : (u :: there ++ back).IsChain g.Step := by
    rw [List.isChain_cons] at hback
    refine List.isChain_append.mpr ⟨hthere, hback.2, fun x hx => ?_⟩
    -- the way back goes on from the end of the way there
    obtain rfl : v = x := by simpa [hend?] using hx
    exact hback.1
  refine ⟨u :: there ++ back, ⟨?inside, hchain, ?closes⟩, by simp, ?there⟩
  case inside =>
    intro x hx
    have hux : g.Reaches u x :=
      hchain.induction (fun y => g.Reaches u y) _
        (fun _ _ hstep hreach => ReflTransGen.tail hreach hstep) (fun _ => .refl) x hx
    exact hg.reaches_lt hu hux
  case closes =>
    cases back with
    | nil =>
      -- there is no way back to go, so `v` is `u`
      obtain rfl : v = u := hreturn
      rw [List.append_nil, hend?]
      rfl
    | cons x back =>
      have hlast : (x :: back).getLast? = some u := by
        rw [← hreturn, List.getLast_cons_cons]
        exact List.getLast?_eq_some_getLast _
      rw [List.getLast?_append, hlast]
      rfl
  case there => exact List.mem_append_left _ (List.mem_of_getLast? hend?)

/-- The nodes on cycles are those of closed walks that visit a second node. -/
theorem mem_cyclicNodes_iff_closedWalk (hg : g.Closed) :
    v ∈ cyclicNodes g.componentsOf ↔
      ∃ walk, g.ClosedWalk walk ∧ v ∈ walk ∧ ∃ u ∈ walk, ∃ w ∈ walk, u ≠ w := by
  rw [mem_cyclicNodes hg]
  constructor
  · rintro ⟨hlt, w, hne, hlinked⟩
    obtain ⟨walk, hwalk, hv, hw⟩ := exists_closedWalk hg hlt hlinked
    exact ⟨walk, hwalk, hv, w, hw, v, hv, hne⟩
  · rintro ⟨walk, hwalk, hv, u, hu, w, hw, hne⟩
    refine ⟨hwalk.inside v hv, ?_⟩
    -- one of the two different nodes is not `v`
    by_cases huv : u = v
    · exact ⟨w, fun hwv => hne (huv.trans hwv.symm), hwalk.linked hv hw⟩
    · exact ⟨u, huv, hwalk.linked hv hu⟩

/-! ### Edges on cycles -/

/-- The edges out of a node that stay in its component are listed by position. -/
theorem pairwise_innerEdges (g : Digraph) (c : Components) (v : Nat) :
    (g.innerEdges c v).Pairwise fun e e' => e.node = e'.node ∧ e.edge < e'.edge := by
  have hpositions : (g.targets v).zipIdx.Pairwise fun a b => a.2 < b.2 := by
    rw [← List.pairwise_map (f := Prod.snd), List.zipIdx_map_snd]
    exact List.pairwise_lt_range'
  rw [innerEdges, List.pairwise_filterMap]
  refine hpositions.imp fun {a b} hlt e he e' he' => ?_
  obtain ⟨_, rfl⟩ : c.same v a.1 = true ∧ ⟨v, a.2⟩ = e := by simpa using he
  obtain ⟨_, rfl⟩ : c.same v b.1 = true ∧ ⟨v, b.2⟩ = e' := by simpa using he'
  exact ⟨rfl, hlt⟩

/-- The edges on cycles follow the order of their sources, and then of their positions. -/
theorem pairwise_cycleEdges (hg : g.Closed) :
    (g.cyclesIn g.componentsOf).edges.Pairwise fun e e' =>
      g.componentsOf.Before e.node e'.node ∨ e.node = e'.node ∧ e.edge < e'.edge := by
  rw [cyclesIn, List.pairwise_flatMap]
  constructor
  · intro v _
    exact (g.pairwise_innerEdges _ v).imp fun {e e'} => Or.inr
  · refine (pairwise_cyclicNodes hg).imp fun {u v} hbefore e he e' he' => ?_
    left
    rw [(mem_innerEdges.mp he).1, (mem_innerEdges.mp he').1]
    exact hbefore

theorem nodup_cycleEdges (hg : g.Closed) : (g.cyclesIn g.componentsOf).edges.Nodup := by
  refine (pairwise_cycleEdges hg).imp fun {e e'} hbefore heq => ?_
  subst heq
  rcases hbefore with hbefore | ⟨_, hlt⟩
  · exact hbefore.ne rfl
  · exact Nat.lt_irrefl _ hlt

/-- An edge between different components is on no cycle. -/
theorem notMem_cycleEdges (hg : g.Closed) {e : EdgeId}
    (hw : (g.targets e.node)[e.edge]? = some w)
    (hne : g.componentsOf.componentOf[e.node]? ≠ g.componentsOf.componentOf[w]?) :
    e ∉ (g.cyclesIn g.componentsOf).edges := by
  intro he
  obtain ⟨hnode, w', hw', hback⟩ := (mem_cycleEdges hg).mp he
  obtain rfl := Option.some.inj (hw.symm.trans hw')
  have hlt := ((mem_cyclicNodes hg).mp hnode).1
  have hstep : g.Step e.node w := List.mem_of_getElem? hw
  obtain ⟨i, j, hi, hj, _, heq⟩ := exists_componentOf_le hg hlt (.single hstep)
  exact hne (by rw [hi, hj, heq.mpr hback])

/-! ### The cycles of a graph -/

/-- **The analysis finds the nodes and edges on non-trivial cycles, once each.** A node is listed
when a closed walk through it visits two different nodes. An edge is listed when its source is and
its target leads back there: a loop with its node, parallel edges all or none, and no edge between
different components. The nodes come component by component, which is topological order, and ascend
in each; the edges follow their sources and then their positions. -/
theorem cycles_eq_closedWalks (g : Digraph) (hg : g.Closed) :
    ∃ c set, g.components = .ok c ∧ g.cycles = .ok set ∧
      (∀ v, v ∈ set.nodes ↔
        ∃ walk, g.ClosedWalk walk ∧ v ∈ walk ∧ ∃ u ∈ walk, ∃ w ∈ walk, u ≠ w) ∧
      (∀ v i, ⟨v, i⟩ ∈ set.edges ↔
        v ∈ set.nodes ∧ ∃ w, (g.targets v)[i]? = some w ∧ g.Reaches w v) ∧
      (∀ v i, (g.targets v)[i]? = some v → (⟨v, i⟩ ∈ set.edges ↔ v ∈ set.nodes)) ∧
      (∀ v i j, (g.targets v)[i]? = (g.targets v)[j]? →
        (⟨v, i⟩ ∈ set.edges ↔ ⟨v, j⟩ ∈ set.edges)) ∧
      (∀ v i w, (g.targets v)[i]? = some w → c.componentOf[v]? ≠ c.componentOf[w]? →
        ⟨v, i⟩ ∉ set.edges) ∧
      set.nodes.Nodup ∧ set.edges.Nodup ∧
      set.nodes.Pairwise c.Before ∧
      set.edges.Pairwise (fun e e' =>
        c.Before e.node e'.node ∨ e.node = e'.node ∧ e.edge < e'.edge) ∧
      ∀ u < g.order, ∀ v, g.Reaches u v → ∃ i j : Nat, c.componentOf[u]? = some i ∧
        c.componentOf[v]? = some j ∧ i ≤ j ∧ (i = j ↔ g.Reaches v u) := by
  have hedge : ∀ v i, (⟨v, i⟩ : EdgeId) ∈ (g.cyclesIn g.componentsOf).edges ↔
      v ∈ cyclicNodes g.componentsOf ∧ ∃ w, (g.targets v)[i]? = some w ∧ g.Reaches w v :=
    fun v i => mem_cycleEdges hg
  refine ⟨g.componentsOf, g.cyclesIn g.componentsOf, components_eq_ok hg, cycles_eq_ok hg,
    fun v => mem_cyclicNodes_iff_closedWalk hg, hedge, ?loops, ?parallel,
    fun v i w => notMem_cycleEdges hg (e := ⟨v, i⟩), nodup_cyclicNodes hg, nodup_cycleEdges hg,
    pairwise_cyclicNodes hg, pairwise_cycleEdges hg,
    fun u hu v => exists_componentOf_le hg hu⟩
  case loops =>
    intro v i hloop
    rw [hedge]
    exact and_iff_left ⟨v, hloop, .refl⟩
  case parallel =>
    intro v i j hsame
    rw [hedge, hedge, hsame]

/-- Two cycles with an edge between them, the first with a loop and a doubled edge, and a node whose
only cycle is its loop. -/
theorem cycles_eq_closedWalks_joined :
    let g := ofLists [[0, 1, 1], [0, 2], [3], [2], [4]]
    g.Closed ∧ ∃ set, g.cycles = .ok set ∧
      (0 ∈ set.nodes ↔ ∃ walk, g.ClosedWalk walk ∧ 0 ∈ walk ∧ ∃ u ∈ walk, ∃ w ∈ walk, u ≠ w) ∧
      (⟨0, 0⟩ ∈ set.edges ↔ 0 ∈ set.nodes) ∧ (⟨4, 0⟩ ∈ set.edges ↔ 4 ∈ set.nodes) ∧
      (⟨0, 1⟩ ∈ set.edges ↔ ⟨0, 2⟩ ∈ set.edges) ∧ set.edges.Nodup := by
  intro g
  have hg : g.Closed := check_eq_ok_iff.mp rfl
  obtain ⟨c, set, _, hset, hnodes, _, hloops, hparallel, _, _, hnodup, _⟩ :=
    cycles_eq_closedWalks g hg
  exact ⟨hg, set, hset, hnodes 0, hloops 0 0 rfl, hloops 4 0 rfl, hparallel 0 1 2 rfl, hnodup⟩

end Digraph

end LockOrder
