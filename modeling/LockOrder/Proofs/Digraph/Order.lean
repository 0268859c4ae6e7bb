import LockOrder.Proofs.Digraph.Cycles
import LockOrder.Proofs.Graph.Basic
import Mathlib.Data.Nat.Find

/-!
# The order of separate parts

Components that are not joined by edges could stand in any order. The two passes decide it by the
numbers of the nodes: if no edge crosses from the nodes below some number to the others or back,
then the components below come before the others. The first pass leaves the nodes below before all
others, so that the second pass, which goes backwards, labels the others first.

A graph that falls into intervals of linked nodes therefore has them for its components, from the
lowest to the highest.

## Main definitions

* `Digraph.Cut` — no edge crosses a number
* `Digraph.Grouped` — the graph falls into intervals of linked nodes, with edges inside them only

## Main results

* `Digraph.componentOf_lt_of_cut` — the components below a cut come first
* `Digraph.Grouped.cyclesIn_eq` — the cycles of a grouped graph are all of it, in order
-/

namespace LockOrder.Digraph

open Relation

variable {g : Digraph} {c c' k : Nat} {labels labels' : Array (Option Nat)} {roots : List Nat}
  {u v w : Nat}

/-! ### Several floods -/

/-- What floods from several roots do, where the labels from `c` up to `c'` are given. -/
structure Spread (g : Digraph) (roots : List Nat) (c : Nat) (labels : Array (Option Nat)) (c' : Nat)
    (labels' : Array (Option Nat)) : Prop where
  /-- The nodes stay the same. -/
  size_eq : labels'.size = labels.size
  /-- No label is taken back. -/
  le : c ≤ c'
  /-- A label that was given stays. -/
  kept : ∀ (v j : Nat), labels[v]? = some (some j) → labels'[v]? = some (some j)
  /-- A new label is one of those from `c` up to `c'`, and given to a node that a root reaches. -/
  new : ∀ (v j : Nat), labels[v]? = some none → labels'[v]? = some (some j) →
    c ≤ j ∧ j < c' ∧ ∃ u ∈ roots, g.Reaches u v
  /-- Every root has a label. -/
  covers : ∀ v ∈ roots, labels'[v]? ≠ some none

/-- A flood from the first root, and floods from the others. -/
theorem Spread.cons (hflood : Flooded g c [v] labels labels')
    {labels'' : Array (Option Nat)} (h : Spread g roots (c + 1) labels' c' labels'') :
    Spread g (v :: roots) c labels c' labels'' where
  size_eq := h.size_eq.trans hflood.size_eq
  le := Nat.le_of_succ_le h.le
  kept w j hw := h.kept w j (hflood.kept w j hw)
  new w j hnone hsome := by
    by_cases hw : labels'[w]? = some none
    · obtain ⟨hle, hlt, u, hu, huw⟩ := h.new w j hw hsome
      exact ⟨Nat.le_of_succ_le hle, hlt, u, List.mem_cons_of_mem v hu, huw⟩
    · have hlt : w < labels'.size :=
        hflood.size_eq ▸ (Array.getElem?_eq_some_iff.mp hnone).1
      obtain ⟨i, hi⟩ := exists_label hlt hw
      obtain rfl : i = j := by simpa [hsome] using (h.kept w i hi).symm
      obtain ⟨rfl, u, hu, huw⟩ := hflood.new w i hnone hi
      obtain rfl := List.mem_singleton.mp hu
      exact ⟨Nat.le_refl i, h.le, u, List.mem_cons_self, huw⟩
  covers w hw := by
    rcases List.mem_cons.mp hw with rfl | hw
    · have hcovers := hflood.covers w (List.mem_singleton_self w)
      by_cases hlt : w < labels'.size
      · obtain ⟨i, hi⟩ := exists_label hlt hcovers
        simp [h.kept w i hi]
      · have hge : labels''.size ≤ w := h.size_eq ▸ Nat.le_of_not_lt hlt
        simp [Array.getElem?_eq_none hge]
    · exact h.covers w hw

/-- Floods from all roots do what `Spread` says. -/
theorem spread_labelAll (g : Digraph) (roots : List Nat) (c : Nat) (labels : Array (Option Nat)) :
    Spread g roots c labels (labelAll g roots c labels).2 (labelAll g roots c labels).1 := by
  induction roots generalizing c labels with
  | nil =>
    refine ⟨rfl, Nat.le_refl c, fun _ _ h => h, fun v j hnone hsome => ?_, by simp⟩
    simp [labelAll, hnone] at hsome
  | cons v roots ih =>
    rw [labelAll]
    by_cases hv : labels[v]? = some none
    · rw [if_pos hv]
      exact .cons (flooded_flood g c [v] labels) (ih (c + 1) _)
    · rw [if_neg hv]
      have hrest := ih c labels
      refine { hrest with new := fun w j hnone hsome => ?_, covers := fun w hw => ?_ }
      · obtain ⟨hle, hlt, u, hu, huw⟩ := hrest.new w j hnone hsome
        exact ⟨hle, hlt, u, List.mem_cons_of_mem v hu, huw⟩
      · rcases List.mem_cons.mp hw with rfl | hw
        · by_cases hlt : w < labels.size
          · obtain ⟨i, hi⟩ := exists_label hlt hv
            simp [hrest.kept w i hi]
          · simp [Array.getElem?_eq_none (hrest.size_eq ▸ Nat.le_of_not_lt hlt)]
        · exact hrest.covers w hw

theorem labelAll_append (g : Digraph) (first second : List Nat) (c : Nat)
    (labels : Array (Option Nat)) :
    labelAll g (first ++ second) c labels =
      labelAll g second (labelAll g first c labels).2 (labelAll g first c labels).1 := by
  induction first generalizing c labels with
  | nil => rfl
  | cons v first ih =>
    rw [List.cons_append, labelAll, labelAll]
    split <;> exact ih _ _

/-! ### Cuts -/

/-- No edge leads from a node below `k` to another one, or back. -/
def Cut (g : Digraph) (k : Nat) : Prop := ∀ u < g.order, ∀ v, g.Step u v → (u < k ↔ v < k)

theorem Cut.reaches (h : g.Cut k) (hg : g.Closed) (hu : u < g.order) (huv : g.Reaches u v) :
    u < k ↔ v < k := by
  induction huv with
  | refl => exact Iff.rfl
  | tail hpath hstep ih => exact ih.trans (h _ (hg.reaches_lt hu hpath) _ hstep)

/-- The first pass leaves the nodes below a cut before all others. -/
theorem Cut.finishOrder_eq_append (h : g.Cut k) (hg : g.Closed) (hk : k ≤ g.order) :
    ∃ later earlier, g.finishOrder = later ++ earlier ∧ (∀ v ∈ later, k ≤ v) ∧
      ∀ v ∈ earlier, v < k := by
  obtain ⟨marks₁, earlier, hwalk₁, hdone₁⟩ := exists_walked g.predecessors (List.range k) _ []
    (fun v _ => g.replicate_ne_entered v) g.settled_replicate
  obtain ⟨marks₂, later, hwalk₂, hdone₂⟩ := exists_walked g.predecessors
    (List.range' k (g.order - k)) marks₁ (earlier ++ [])
    (fun v _ => by rw [Ne, hdone₁.entered]; exact g.replicate_ne_entered v) hdone₁.settled
  have hroots : List.range g.order = List.range k ++ List.range' k (g.order - k) := by
    have happend := List.range'_append_1 (s := 0) (m := k) (n := g.order - k)
    rw [Nat.zero_add, Nat.add_sub_cancel' hk] at happend
    rw [List.range_eq_range', List.range_eq_range', happend]
  have hsplit : g.finishOrder = later ++ earlier := by
    rw [finishOrder_eq_walk, hroots, walk_append, hwalk₁, hwalk₂, List.append_nil]
  -- a walk against the edges stays on its side of the cut
  have hside : ∀ {u v}, v ∈ g.finishOrder → ReflTransGen (Along g.predecessors) u v →
      (v < k ↔ u < k) := by
    intro u v hv huv
    have hlt := mem_finishOrder.mp hv
    exact h.reaches hg hlt ((reflTransGen_predecessors_iff hg hlt).mp huv)
  refine ⟨later, earlier, hsplit, fun v hv => ?_, fun v hv => ?_⟩
  · obtain ⟨u, hu, huv⟩ := hdone₂.reached v hv
    have hle := (List.mem_range'_1.mp hu).1
    exact Nat.le_of_not_lt fun hlt =>
      Nat.not_lt.mpr hle ((hside (hsplit ▸ List.mem_append_left _ hv) huv).mp hlt)
  · obtain ⟨u, hu, huv⟩ := hdone₁.reached v hv
    exact (hside (hsplit ▸ List.mem_append_right _ hv) huv).mpr (List.mem_range.mp hu)

/-- Of two nodes on the two sides of a cut, the lower one has the greater label. -/
theorem Cut.label_lt (h : g.Cut k) (hg : g.Closed) (hu : u < k) (hv : k ≤ v) (hlt : v < g.order) :
    ∃ i j : Nat, j < i ∧ i < (labelAll g g.finishOrder 0 (Array.replicate g.order none)).2 ∧
      (labelAll g g.finishOrder 0 (Array.replicate g.order none)).1[u]? = some (some i) ∧
      (labelAll g g.finishOrder 0 (Array.replicate g.order none)).1[v]? = some (some j) := by
  have hult : u < g.order := Nat.lt_trans (Nat.lt_of_lt_of_le hu hv) hlt
  obtain ⟨later, earlier, hsplit, hlater, hearlier⟩ :=
    h.finishOrder_eq_append hg (Nat.le_trans hv (Nat.le_of_lt hlt))
  have hmem : ∀ x < g.order, x ∈ later ∨ x ∈ earlier := fun x hx =>
    List.mem_append.mp (hsplit ▸ mem_finishOrder.mpr hx)
  have hfirst := spread_labelAll g later 0 (Array.replicate g.order none)
  have hsecond := spread_labelAll g earlier (labelAll g later 0 (Array.replicate g.order none)).2
    (labelAll g later 0 (Array.replicate g.order none)).1
  rw [← labelAll_append, ← hsplit] at hsecond
  have hnone : ∀ x < g.order, (Array.replicate g.order (none : Option Nat))[x]? = some none := by
    intro x hx
    simp [hx]
  have hsize : (labelAll g later 0 (Array.replicate g.order none)).1.size = g.order := by
    simpa using hfirst.size_eq
  -- the upper node gets its label in the first part of the floods
  obtain ⟨j, hj⟩ := exists_label (hsize.symm ▸ hlt) (hfirst.covers v
    ((hmem v hlt).resolve_right fun hmem' => Nat.not_lt.mpr hv (hearlier v hmem')))
  -- the lower node gets its label in the second part
  have hunone : (labelAll g later 0 (Array.replicate g.order none)).1[u]? = some none := by
    by_contra hsome
    obtain ⟨i, hi⟩ := exists_label (hsize.symm ▸ hult) hsome
    obtain ⟨_, _, x, hx, hxu⟩ := hfirst.new u i (hnone u hult) hi
    have hxlt : x < g.order := mem_finishOrder.mp (hsplit ▸ List.mem_append_left _ hx)
    exact Nat.not_lt.mpr (hlater x hx) ((h.reaches hg hxlt hxu).mpr hu)
  obtain ⟨i, hi⟩ := exists_label (hsecond.size_eq ▸ hsize.symm ▸ hult) (hsecond.covers u
    ((hmem u hult).resolve_left fun hmem' => Nat.not_lt.mpr (hlater u hmem') hu))
  obtain ⟨hle, hilt, _⟩ := hsecond.new u i hunone hi
  exact ⟨i, j, Nat.lt_of_lt_of_le (hfirst.new v j (hnone v hlt) hj).2.1 hle, hilt, hi,
    hsecond.kept v j hj⟩

/-- The components below a cut come before all others. -/
theorem componentOf_lt_of_cut (hg : g.Closed) (h : g.Cut k) (hu : u < k) (hv : k ≤ v) {i j : Nat}
    (hi : g.componentsOf.componentOf[u]? = some i)
    (hj : g.componentsOf.componentOf[v]? = some j) : i < j := by
  obtain ⟨a, b, hba, ha, hua, hvb⟩ := h.label_lt hg hu hv (lt_order_of_componentOf hg hj)
  simp only [componentsOf, Array.getElem?_map, hua, hvb, Option.map_some, Option.getD_some,
    Option.some.injEq] at hi hj
  omega

/-! ### Grouped graphs -/

/-- The graph falls into groups that are intervals of nodes: nodes are in one group exactly when
they are linked, every group has two nodes or more, and edges stay inside groups. -/
structure Grouped (g : Digraph) (group : Nat → Nat) : Prop where
  /-- No edge leads out of the graph. -/
  closed : g.Closed
  /-- Groups are numbered by their nodes. -/
  mono : ∀ u v, u ≤ v → v < g.order → group u ≤ group v
  /-- Groups consist of linked nodes. -/
  linked : ∀ u < g.order, ∀ v < g.order, group u = group v → g.Linked u v
  /-- Edges stay inside groups. -/
  step : ∀ u < g.order, ∀ v, g.Step u v → group u = group v
  /-- No group has one node only. -/
  second : ∀ u < g.order, ∃ v, v ≠ u ∧ g.Linked u v

variable {group : Nat → Nat}

/-- Components of a grouped graph come in the order of their nodes. -/
theorem Grouped.componentOf_mono (h : Grouped g group) (huv : u < v) {i j : Nat}
    (hi : g.componentsOf.componentOf[u]? = some i)
    (hj : g.componentsOf.componentOf[v]? = some j) : i ≤ j := by
  have hlt : v < g.order := lt_order_of_componentOf h.closed hj
  have hult : u < g.order := Nat.lt_trans huv hlt
  rcases Nat.lt_or_eq_of_le (h.mono u v (Nat.le_of_lt huv) hlt) with hgroup | hgroup
  · -- the first node of the group of `v` is a cut
    have hexists : ∃ k, group v ≤ group k := ⟨v, Nat.le_refl _⟩
    have hbelow : ∀ x < g.order, x < Nat.find hexists ↔ group x < group v := by
      intro x hx
      rw [Nat.lt_find_iff]
      constructor
      · intro hall
        exact Nat.lt_of_not_le (hall x (Nat.le_refl x))
      · intro hxv m hmx hvm
        exact Nat.not_lt.mpr (Nat.le_trans hvm (h.mono m x hmx hx)) hxv
    have hcut : g.Cut (Nat.find hexists) := fun x hx y hxy => by
      rw [hbelow x hx, hbelow y (h.closed.inside x hx y hxy), h.step x hx y hxy]
    refine Nat.le_of_lt (componentOf_lt_of_cut h.closed hcut ((hbelow u hult).mpr hgroup) ?_ hi hj)
    exact Nat.find_min' hexists (Nat.le_refl _)
  · exact Nat.le_of_eq ((componentOf_eq_iff_linked h.closed hi hj).mpr
      (h.linked u hult v hlt hgroup))

/-- The components of a grouped graph in a row are all nodes in order. -/
theorem Grouped.flatten_members (h : Grouped g group) :
    g.componentsOf.members.toList.flatten = List.range g.order := by
  have hcoherent := componentsOf_coherent h.closed
  have hperm := hcoherent.flatten_perm
  rw [size_componentOf h.closed] at hperm
  have hsorted : g.componentsOf.members.toList.flatten.Pairwise (· ≤ ·) := by
    refine hcoherent.pairwise_flatten.imp fun {u v} huv => ?_
    obtain ⟨i, j, hi, hj, hij | ⟨_, hlt⟩⟩ := huv
    · -- a node of an earlier component is lower, as components come in the order of their nodes
      by_contra hle
      exact Nat.not_le.mpr hij (h.componentOf_mono (Nat.lt_of_not_le hle) hj hi)
    · exact Nat.le_of_lt hlt
  exact hperm.eq_of_pairwise (fun _ _ _ _ => Nat.le_antisymm) hsorted
    (List.pairwise_lt_range.imp Nat.le_of_lt)

/-- Every node of a grouped graph lies on a cycle. -/
theorem Grouped.cyclicNodes_eq (h : Grouped g group) :
    cyclicNodes g.componentsOf = List.range g.order := by
  have hsub : (cyclicNodes g.componentsOf).Sublist (List.range g.order) :=
    h.flatten_members ▸ List.filter_sublist.flatten
  refine hsub.eq_of_length (List.Perm.length_eq ?_)
  rw [List.perm_ext_iff_of_nodup (hsub.nodup List.nodup_range) List.nodup_range]
  intro v
  rw [mem_cyclicNodes h.closed, List.mem_range]
  exact ⟨fun hv => hv.1, fun hv => ⟨hv, h.second v hv⟩⟩

/-- Every edge of a grouped graph lies on a cycle. -/
theorem Grouped.innerEdges_eq (h : Grouped g group) (hv : v < g.order) :
    g.innerEdges g.componentsOf v = g.edgesFrom v := by
  rw [innerEdges, edgesFrom_eq_map_zipIdx, ← List.filterMap_eq_map]
  refine List.filterMap_congr fun edge hedge => ?_
  have hstep : g.Step v edge.1 :=
    List.mem_of_getElem? (List.mem_zipIdx_iff_getElem?.mp hedge)
  have hlt := h.closed.inside v hv edge.1 hstep
  have hsame := (same_componentsOf_iff h.closed hv hlt).mpr
    (h.linked v hv edge.1 hlt (h.step v hv edge.1 hstep))
  simp [hsame]

/-- A grouped graph lies on cycles as a whole, and the analysis gives its nodes and edges in
order. -/
theorem Grouped.cyclesIn_eq (h : Grouped g group) :
    g.cyclesIn g.componentsOf =
      ⟨List.range g.order, (List.range g.order).flatMap g.edgesFrom⟩ := by
  rw [cyclesIn, h.cyclicNodes_eq, CycleSet.mk.injEq]
  refine ⟨rfl, ?_⟩
  simp only [List.flatMap_def]
  rw [List.map_congr_left fun v hv => h.innerEdges_eq (List.mem_range.mp hv)]

end LockOrder.Digraph
