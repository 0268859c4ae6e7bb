import LockOrder.Digraph.Basic
import LockOrder.Proofs.Outcome
import LockOrder.Proofs.Position
import Mathlib.Logic.Relation

/-!
# Reachability

A node reaches another when a walk along edges leads there, and two nodes are *linked* when each
reaches the other. In a closed graph every node has a list of successors and these are nodes, so
that no walk leaves the graph; closed graphs are those that `Digraph.check` accepts.

Depth-first walks go along lists of neighbours. On the lists of predecessors such a walk follows
edges from their ends to their starts.

## Main definitions

* `Digraph.Closed` — no edge leads out of the graph
* `Digraph.Reaches`, `Digraph.Linked` — reachability one way and both ways
* `Along` — the relation of lists of neighbours

## Main results

* `Digraph.check_eq_ok_iff` — the check accepts exactly closed graphs
* `Digraph.mem_predecessors` — predecessors are the starts of edges
* `Digraph.reflTransGen_predecessors_iff` — walking against the edges is reaching backwards
-/

namespace LockOrder

open Relation

/-- The node `v` is a neighbour of `u` in lists of neighbours. -/
def Along (next : Array (List Nat)) (u v : Nat) : Prop := v ∈ next.getD u []

namespace Digraph

variable {g : Digraph} {a b c u v : Nat}

/-- Every node has a list of successors, and these are nodes. -/
structure Closed (g : Digraph) : Prop where
  /-- Every node has a list of successors. -/
  listed : g.order ≤ g.successors.size
  /-- Every successor of a node is a node. -/
  inside : ∀ u < g.order, ∀ v ∈ g.targets u, v < g.order

/-- A walk along edges leads from `u` to `v`. -/
def Reaches (g : Digraph) (u v : Nat) : Prop := ReflTransGen g.Step u v

/-- Each of two nodes reaches the other. -/
def Linked (g : Digraph) (u v : Nat) : Prop := g.Reaches u v ∧ g.Reaches v u

theorem Linked.refl (g : Digraph) (u : Nat) : g.Linked u u := ⟨.refl, .refl⟩

theorem Linked.symm (h : g.Linked u v) : g.Linked v u := ⟨h.2, h.1⟩

theorem Linked.trans (h : g.Linked a b) (h' : g.Linked b c) : g.Linked a c :=
  ⟨ReflTransGen.trans h.1 h'.1, ReflTransGen.trans h'.2 h.2⟩

/-! ### Closed graphs -/

theorem checkTargets_eq_ok_iff {order : Nat} {vs : List Nat} :
    checkTargets order vs = .ok () ↔ ∀ v ∈ vs, v < order := by
  induction vs with
  | nil => simp [checkTargets]
  | cons v vs ih => by_cases h : v < order <;> simp [checkTargets, h, ih]

theorem out_eq_ok_iff {vs : List Nat} :
    g.out u = .ok vs ↔ u < g.successors.size ∧ g.targets u = vs := by
  rw [out, arrayAt_eq_ok_iff, targets, Array.getElem?_eq_some_iff]
  constructor
  · rintro ⟨hu, rfl⟩
    exact ⟨hu, by simp [hu]⟩
  · rintro ⟨hu, rfl⟩
    exact ⟨hu, by simp [hu]⟩

/-- The check accepts exactly the closed graphs. -/
theorem check_eq_ok_iff : g.check = .ok () ↔ g.Closed := by
  have hnode : ∀ v, (g.out v >>= checkTargets g.order) = .ok () ↔
      v < g.successors.size ∧ ∀ w ∈ g.targets v, w < g.order := by
    intro v
    simp only [Outcome.bind_eq_ok_iff, out_eq_ok_iff, checkTargets_eq_ok_iff]
    constructor
    · rintro ⟨_, ⟨hv, rfl⟩, hin⟩
      exact ⟨hv, hin⟩
    · rintro ⟨hv, hin⟩
      exact ⟨_, ⟨hv, rfl⟩, hin⟩
  rw [check, Outcome.forM_eq_ok_iff]
  simp only [hnode, List.mem_range]
  constructor
  · intro h
    refine ⟨?_, fun u hu => (h u hu).2⟩
    by_contra hlt
    have hlast := (h (g.order - 1) (by omega)).1
    omega
  · intro h v hv
    exact ⟨Nat.lt_of_lt_of_le hv h.listed, h.inside v hv⟩

/-- No walk leaves a closed graph. -/
theorem Closed.reaches_lt (h : g.Closed) (hu : u < g.order) (huv : g.Reaches u v) :
    v < g.order := by
  induction huv with
  | refl => exact hu
  | tail _ hstep ih => exact h.inside _ ih _ hstep

/-! ### Predecessors -/

theorem mem_arcs : (u, v) ∈ g.arcs ↔ u < g.order ∧ g.Step u v := by
  simp only [arcs, List.mem_flatMap, List.mem_range, List.mem_map, Prod.mk.injEq, Step]
  constructor
  · rintro ⟨_, hu, _, hv, rfl, rfl⟩
    exact ⟨hu, hv⟩
  · rintro ⟨hu, hv⟩
    exact ⟨u, hu, v, hv, rfl, rfl⟩

/-- The predecessors of a node are the starts of the edges into it. -/
theorem mem_predecessors :
    Along g.predecessors v u ↔ u < g.order ∧ v < g.order ∧ g.Step u v := by
  rw [Along, predecessors, Array.getD_eq_getD_getElem?, getElem?_buckets]
  by_cases hv : v < g.order
  · simp only [hv, if_true, Option.getD_some, List.mem_map, List.mem_filter, true_and,
      decide_eq_true_eq, Prod.exists, exists_eq_right, Prod.swap_prod_mk, Prod.mk.injEq]
    constructor
    · rintro ⟨_, _, harc, rfl, rfl⟩
      exact mem_arcs.mp harc
    · intro h
      exact ⟨u, v, mem_arcs.mpr h, rfl, rfl⟩
  · simp [hv]

/-- Walking against the edges leads from `v` to `u` exactly when `u` reaches `v`. -/
theorem reflTransGen_predecessors_iff (h : g.Closed) (hu : u < g.order) :
    ReflTransGen (Along g.predecessors) v u ↔ g.Reaches u v := by
  constructor
  · intro hwalk
    induction hwalk using ReflTransGen.head_induction_on with
    | refl => exact .refl
    | head hstep _ ih => exact ReflTransGen.tail ih (mem_predecessors.mp hstep).2.2
  · intro hreach
    induction hreach with
    | refl => exact .refl
    | tail hpath hstep ih =>
      have hmid := h.reaches_lt hu hpath
      exact .head (mem_predecessors.mpr ⟨hmid, h.inside _ hmid _ hstep, hstep⟩) ih

end Digraph

end LockOrder
