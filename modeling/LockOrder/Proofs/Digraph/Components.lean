import LockOrder.Proofs.Digraph.Walk
import Mathlib.Data.List.Nodup

/-!
# Strongly connected components

The second pass floods forward from the nodes in the reverse of the order in which the first pass
left them. The nodes that have a label are closed under edges at every time, so a flood that starts
at a node without a label labels just the nodes without one that it reaches. By the order of the
first pass these reach back: otherwise they would be reached from an earlier start, and would have a
label already.

## Main definitions

* `Digraph.Flooded` — what a flood does
* `Digraph.Labelled` — what holds between floods
* `Components.Coherent` — the members and the component of each node tell the same

## Main results

* `Digraph.labelled_flood` — a flood labels one component
* `Digraph.componentsOf_coherent`, `Digraph.same_componentsOf_iff`,
  `Digraph.componentOf_le_of_reaches` — what the two passes compute
* `Digraph.components_stronglyConnected` — the components are the classes of linked nodes
* `Digraph.components_topological` — edges lead forward in the order of the components
-/

namespace LockOrder

namespace Digraph

open Relation

variable {g : Digraph} {c : Nat} {stack : List Nat} {labels labels' : Array (Option Nat)}
  {u v w : Nat}

/-! ### Floods -/

theorem exists_label (hlt : v < labels.size) (hne : labels[v]? ≠ some none) :
    ∃ k, labels[v]? = some (some k) := by
  cases hlabel : labels[v] with
  | none => exact absurd (by simp [hlt, hlabel]) hne
  | some k => exact ⟨k, by simp [hlt, hlabel]⟩

/-- What a flood with the label `c` from a stack does. -/
structure Flooded (g : Digraph) (c : Nat) (stack : List Nat)
    (labels labels' : Array (Option Nat)) : Prop where
  /-- The nodes stay the same. -/
  size_eq : labels'.size = labels.size
  /-- A label that was given stays. -/
  kept : ∀ (v k : Nat), labels[v]? = some (some k) → labels'[v]? = some (some k)
  /-- A new label is `c`, and given to a node that the stack reaches. -/
  new : ∀ (v k : Nat), labels[v]? = some none → labels'[v]? = some (some k) →
    k = c ∧ ∃ u ∈ stack, g.Reaches u v
  /-- Every node of the stack has a label. -/
  covers : ∀ v ∈ stack, labels'[v]? ≠ some none
  /-- The successors of a node with a new label have labels. -/
  closed : ∀ (v k : Nat), labels[v]? = some none → labels'[v]? = some (some k) →
    ∀ w, g.Step v w → labels'[w]? ≠ some none

/-- A node without a label had none before. -/
theorem Flooded.none_of_none (h : Flooded g c stack labels labels')
    (hv : labels'[v]? = some none) : labels[v]? = some none := by
  have hlt : v < labels.size := h.size_eq ▸ (Array.getElem?_eq_some_iff.mp hv).1
  by_contra hne
  obtain ⟨k, hk⟩ := exists_label hlt hne
  have hkept := h.kept v k hk
  simp [hv] at hkept

theorem flood_nil : flood g c [] labels = labels := by rw [flood]

theorem flood_cons_of_none (hv : labels[v]? = some none) :
    flood g c (v :: stack) labels =
      flood g c (g.targets v ++ stack) (labels.setIfInBounds v (some c)) := by
  rw [flood]
  split <;> simp_all

theorem flood_cons_of_ne (hv : labels[v]? ≠ some none) :
    flood g c (v :: stack) labels = flood g c stack labels := by
  rw [flood]
  split <;> simp_all

/-- A flood does what `Flooded` says. -/
theorem flooded_flood (g : Digraph) (c : Nat) (stack : List Nat) (labels : Array (Option Nat)) :
    Flooded g c stack labels (flood g c stack labels) := by
  induction stack, labels using flood.induct g c with
  | case1 labels =>
    rw [flood_nil]
    refine ⟨rfl, fun _ _ h => h, ?_, by simp, ?_⟩ <;>
    · intro v k hnone hsome
      simp [hnone] at hsome
  | case2 v stack labels hv ih =>
    rw [flood_cons_of_none hv]
    have hlt : v < labels.size := (Array.getElem?_eq_some_iff.mp hv).1
    have hself : (flood g c (g.targets v ++ stack) (labels.setIfInBounds v (some c)))[v]? =
        some (some c) := ih.kept v c (by simp [hlt])
    have hset : ∀ w, v ≠ w → (labels.setIfInBounds v (some c))[w]? = labels[w]? := by
      intro w hw
      simp [hw]
    refine ⟨by simpa using ih.size_eq, ?kept, ?new, ?covers, ?closed⟩
    case kept =>
      intro w k hw
      by_cases hvw : v = w
      · subst hvw
        simp [hv] at hw
      · exact ih.kept w k ((hset w hvw).trans hw)
    case new =>
      intro w k hnone hsome
      by_cases hvw : v = w
      · subst hvw
        rw [hself] at hsome
        exact ⟨by simpa using hsome.symm, v, List.mem_cons_self, .refl⟩
      · obtain ⟨rfl, u, hu, huw⟩ := ih.new w k ((hset w hvw).trans hnone) hsome
        refine ⟨rfl, ?_⟩
        rcases List.mem_append.mp hu with hu | hu
        · exact ⟨v, List.mem_cons_self, .head hu huw⟩
        · exact ⟨u, List.mem_cons_of_mem v hu, huw⟩
    case covers =>
      intro w hw
      rcases List.mem_cons.mp hw with rfl | hw
      · simp [hself]
      · exact ih.covers w (List.mem_append_right _ hw)
    case closed =>
      -- the successors of `v` go on the stack, which the rest of the flood covers
      intro w k hnone hsome x hwx
      by_cases hvw : v = w
      · subst hvw
        exact ih.covers x (List.mem_append_left _ hwx)
      · exact ih.closed w k ((hset w hvw).trans hnone) hsome x hwx
  | case3 v stack labels hv ih =>
    rw [flood_cons_of_ne hv]
    refine ⟨ih.size_eq, ih.kept, ?_, ?_, ih.closed⟩
    · intro w k hnone hsome
      obtain ⟨rfl, u, hu, huw⟩ := ih.new w k hnone hsome
      exact ⟨rfl, u, List.mem_cons_of_mem v hu, huw⟩
    · intro w hw
      rcases List.mem_cons.mp hw with rfl | hw
      · exact fun hnone => hv (ih.none_of_none hnone)
      · exact ih.covers w hw

/-! ### Between floods -/

/-- What holds between floods, when the labels below `c` are used up. -/
structure Labelled (g : Digraph) (c : Nat) (labels : Array (Option Nat)) : Prop where
  /-- There is a place for the label of each node. -/
  size_eq : labels.size = g.order
  /-- The labels in use are those below `c`. -/
  used : ∀ k, k < c ↔ ∃ v : Nat, labels[v]? = some (some k)
  /-- The successors of a node with a label have labels, and no greater ones. -/
  closed : ∀ (u k : Nat), labels[u]? = some (some k) → ∀ v, g.Step u v →
    ∃ j ≤ k, labels[v]? = some (some j)
  /-- Nodes with labels are linked when the labels are the same. -/
  linked : ∀ (u v j k : Nat), labels[u]? = some (some j) → labels[v]? = some (some k) →
    (j = k ↔ g.Linked u v)

/-- What a node with a label reaches has a label, and no greater one. -/
theorem Labelled.reaches {k : Nat} (h : Labelled g c labels) (hu : labels[u]? = some (some k))
    (huv : g.Reaches u v) : ∃ j ≤ k, labels[v]? = some (some j) := by
  induction huv with
  | refl => exact ⟨k, Nat.le_refl k, hu⟩
  | tail _ hstep ih =>
    obtain ⟨j, hjk, hmid⟩ := ih
    obtain ⟨i, hij, hi⟩ := h.closed _ j hmid _ hstep
    exact ⟨i, Nat.le_trans hij hjk, hi⟩

/-- Before the first flood no node has a label. -/
theorem labelled_replicate (g : Digraph) : Labelled g 0 (Array.replicate g.order none) := by
  refine ⟨by simp, ?_, ?_, ?_⟩
  · intro k
    simp [Array.getElem?_replicate]
  · intro u k hu
    simp [Array.getElem?_replicate] at hu
  · intro u v j k hu
    simp [Array.getElem?_replicate] at hu

/-- The nodes that a flood reaches and that have no label yet are linked to its start, if all nodes
that were left later than the start have labels. -/
theorem Labelled.linked_of_reaches (h : Labelled g c labels) (hg : g.Closed)
    {later earlier : List Nat} (hsplit : g.finishOrder = later ++ v :: earlier)
    (hlater : ∀ u ∈ later, labels[u]? ≠ some none) (hvw : g.Reaches v w)
    (hw : labels[w]? = some none) : g.Linked v w := by
  have hwlt : w < g.order := h.size_eq ▸ (Array.getElem?_eq_some_iff.mp hw).1
  have hmem : w ∈ later ++ v :: earlier := hsplit ▸ mem_finishOrder.mpr hwlt
  rcases List.mem_append.mp hmem with hmem | hmem
  · exact absurd hw (hlater w hmem)
  rcases List.mem_cons.mp hmem with rfl | hmem
  · exact .refl g w
  rcases finishOrder_ranked hg hsplit hmem hvw with hback | ⟨x, hx, hxw⟩
  · exact ⟨hvw, hback⟩
  · -- an earlier flood has passed through `x`, and so has reached `w`
    have hxlt : x < labels.size := by
      rw [h.size_eq, ← mem_finishOrder, hsplit]
      exact List.mem_append_left _ hx
    obtain ⟨k, hk⟩ := exists_label hxlt (hlater x hx)
    obtain ⟨j, _, hj⟩ := h.reaches hk hxw
    simp [hw] at hj

/-- After a flood, a label is old or belongs to a node that is linked to the start. -/
theorem Labelled.old_or_linked {k : Nat} (h : Labelled g c labels) (hg : g.Closed)
    {later earlier : List Nat} (hsplit : g.finishOrder = later ++ v :: earlier)
    (hlater : ∀ u ∈ later, labels[u]? ≠ some none)
    (hw : (flood g c [v] labels)[w]? = some (some k)) :
    labels[w]? = some (some k) ∨ labels[w]? = some none ∧ k = c ∧ g.Linked v w := by
  have hflood := flooded_flood g c [v] labels
  by_cases hnone : labels[w]? = some none
  · obtain ⟨rfl, u, hu, huw⟩ := hflood.new w k hnone hw
    obtain rfl := List.mem_singleton.mp hu
    exact .inr ⟨hnone, rfl, h.linked_of_reaches hg hsplit hlater huw hnone⟩
  · have hlt : w < labels.size := hflood.size_eq ▸ (Array.getElem?_eq_some_iff.mp hw).1
    obtain ⟨j, hj⟩ := exists_label hlt hnone
    have hkept := hflood.kept w j hj
    rw [hw] at hkept
    simp only [Option.some.injEq] at hkept
    exact .inl (hkept ▸ hj)

/-- A flood labels one component. -/
theorem labelled_flood (h : Labelled g c labels) (hg : g.Closed) {later earlier : List Nat}
    (hsplit : g.finishOrder = later ++ v :: earlier)
    (hlater : ∀ u ∈ later, labels[u]? ≠ some none) (hv : labels[v]? = some none) :
    Labelled g (c + 1) (flood g c [v] labels) := by
  have hflood := flooded_flood g c [v] labels
  have hcases := fun w k => h.old_or_linked (w := w) (k := k) hg hsplit hlater
  have hold : ∀ w k, labels[w]? = some (some k) → k < c := fun w k hw => (h.used k).mpr ⟨w, hw⟩
  have hstart : (flood g c [v] labels)[v]? = some (some c) := by
    obtain ⟨k, hk⟩ := exists_label (hflood.size_eq ▸ (Array.getElem?_eq_some_iff.mp hv).1)
      (hflood.covers v (List.mem_singleton_self v))
    rw [hk, (hflood.new v k hv hk).1]
  refine ⟨hflood.size_eq.trans h.size_eq, ?used, ?closed, ?linked⟩
  case used =>
    intro k
    constructor
    · intro hk
      rcases Nat.lt_succ_iff_lt_or_eq.mp hk with hk | rfl
      · obtain ⟨w, hw⟩ := (h.used k).mp hk
        exact ⟨w, hflood.kept w k hw⟩
      · exact ⟨v, hstart⟩
    · rintro ⟨w, hw⟩
      rcases hcases w k hw with hw | ⟨_, rfl, _⟩
      · exact Nat.lt_succ_of_lt (hold w k hw)
      · exact Nat.lt_succ_self k
  case closed =>
    intro u k hu w huw
    rcases hcases u k hu with hu' | ⟨hnone, rfl, _⟩
    · obtain ⟨j, hjk, hj⟩ := h.closed u k hu' w huw
      exact ⟨j, hjk, hflood.kept w j hj⟩
    · have hult : u < g.order := h.size_eq ▸ (Array.getElem?_eq_some_iff.mp hnone).1
      have hwlt : w < (flood g k [v] labels).size := by
        rw [hflood.size_eq, h.size_eq]
        exact hg.inside u hult w huw
      obtain ⟨j, hj⟩ := exists_label hwlt (hflood.closed u k hnone hu w huw)
      refine ⟨j, ?_, hj⟩
      rcases hcases w j hj with hw | ⟨_, rfl, _⟩
      · exact Nat.le_of_lt (hold w j hw)
      · exact Nat.le_refl j
  case linked =>
    -- An old label is not the new one, and what a node with an old label reaches has an old label,
    -- so only two nodes that are both old or both new can be linked.
    have hmixed : ∀ {x y i}, labels[x]? = some (some i) → labels[y]? = some none →
        ¬ g.Reaches x y := by
      intro x y i hx hy hxy
      obtain ⟨j, _, hj⟩ := h.reaches hx hxy
      simp [hy] at hj
    intro u w j k hu hw
    rcases hcases u j hu with huOld | ⟨huNone, rfl, hvu⟩ <;>
    rcases hcases w k hw with hwOld | ⟨hwNone, rfl, hvw⟩
    · exact h.linked u w j k huOld hwOld
    · exact iff_of_false (Nat.ne_of_lt (hold u j huOld)) fun hlink => hmixed huOld hwNone hlink.1
    · exact iff_of_false (Nat.ne_of_gt (hold w k hwOld)) fun hlink => hmixed hwOld huNone hlink.2
    · exact iff_of_true rfl (hvu.symm.trans hvw)

/-- Flooding from the rest of the order in which nodes were left gives every node a label. -/
theorem exists_labelled_labelAll (hg : g.Closed) (roots : List Nat) (later : List Nat)
    (hsplit : g.finishOrder = later ++ roots) (h : Labelled g c labels)
    (hlater : ∀ u ∈ later, labels[u]? ≠ some none) :
    ∃ labels' count, labelAll g roots c labels = (labels', count) ∧ Labelled g count labels' ∧
      ∀ u ∈ g.finishOrder, labels'[u]? ≠ some none := by
  induction roots generalizing c labels later with
  | nil =>
    refine ⟨labels, c, rfl, h, ?_⟩
    rwa [hsplit, List.append_nil]
  | cons v roots ih =>
    have hsplit' : g.finishOrder = (later ++ [v]) ++ roots := by simpa using hsplit
    rw [labelAll]
    by_cases hv : labels[v]? = some none
    · rw [if_pos hv]
      have hflood := flooded_flood g c [v] labels
      refine ih (later ++ [v]) hsplit' (labelled_flood h hg hsplit hlater hv) ?_
      intro u hu
      rcases List.mem_append.mp hu with hu | hu
      · exact fun hnone => hlater u hu (hflood.none_of_none hnone)
      · exact hflood.covers u hu
    · rw [if_neg hv]
      refine ih (later ++ [v]) hsplit' h ?_
      intro u hu
      rcases List.mem_append.mp hu with hu | hu
      · exact hlater u hu
      · rwa [List.mem_singleton.mp hu]

end Digraph

/-! ### Components -/

/-- The members of each component and the component of each node tell the same: the members of a
component are its nodes, ascending, and there are some. -/
structure Components.Coherent (c : Components) : Prop where
  /-- The members of a component are the nodes in it. -/
  mem_iff : ∀ (k : Nat) (m : List Nat), c.members[k]? = some m →
    ∀ v, v ∈ m ↔ c.componentOf[v]? = some k
  /-- The members of a component ascend. -/
  sorted : ∀ m ∈ c.members, m.Pairwise (· < ·)
  /-- The components are those that nodes are in. -/
  used : ∀ k, k < c.members.size ↔ ∃ v : Nat, c.componentOf[v]? = some k

namespace Components

variable {c : Components} {k v : Nat}

/-- A node is in the component that has it as a member. -/
theorem Coherent.componentOf_eq_iff (h : c.Coherent) :
    c.componentOf[v]? = some k ↔ ∃ m, c.members[k]? = some m ∧ v ∈ m := by
  constructor
  · intro hv
    have hk : k < c.members.size := (h.used k).mpr ⟨v, hv⟩
    exact ⟨c.members[k], by simp [hk], (h.mem_iff k _ (by simp [hk]) v).mpr hv⟩
  · rintro ⟨m, hm, hv⟩
    exact (h.mem_iff k m hm v).mp hv

/-- No component is empty. -/
theorem Coherent.ne_nil (h : c.Coherent) {m : List Nat} (hm : m ∈ c.members) : m ≠ [] := by
  obtain ⟨k, hk, rfl⟩ := Array.mem_iff_getElem.mp hm
  obtain ⟨v, hv⟩ := (h.used k).mp hk
  exact List.ne_nil_of_mem ((h.mem_iff k _ (by simp [hk]) v).mpr hv)

/-- No node is a member of two components. -/
theorem Coherent.pairwise_disjoint (h : c.Coherent) : c.members.toList.Pairwise List.Disjoint := by
  rw [List.pairwise_iff_getElem]
  intro i j hi hj hij v hvi hvj
  have hvi' := (h.mem_iff i _ (by simp [Array.getElem?_eq_getElem hi]) v).mp hvi
  have hvj' := (h.mem_iff j _ (by simp [Array.getElem?_eq_getElem hj]) v).mp hvj
  rw [hvi'] at hvj'
  simp only [Option.some.injEq] at hvj'
  omega

/-- The components in a row are ordered by component and then by node. -/
theorem Coherent.pairwise_flatten (h : c.Coherent) :
    c.members.toList.flatten.Pairwise fun u v => ∃ i j,
      c.componentOf[u]? = some i ∧ c.componentOf[v]? = some j ∧ (i < j ∨ i = j ∧ u < v) := by
  have hin : ∀ (i : Nat) (hi : i < c.members.toList.length), ∀ v ∈ c.members.toList[i],
      c.componentOf[v]? = some i := by
    intro i hi v
    exact (h.mem_iff i _ (by simp [Array.getElem?_eq_getElem hi]) v).mp
  rw [List.pairwise_flatten]
  constructor
  · intro m hm
    obtain ⟨k, hk, rfl⟩ := List.mem_iff_getElem.mp hm
    refine (h.sorted _ (Array.mem_toList_iff.mp hm)).imp_of_mem fun hu hv hlt => ?_
    exact ⟨k, k, hin k hk _ hu, hin k hk _ hv, .inr ⟨rfl, hlt⟩⟩
  · rw [List.pairwise_iff_getElem]
    intro i j hi hj hij u hu v hv
    exact ⟨i, j, hin i hi u hu, hin j hj v hv, .inl hij⟩

/-- Every node is a member once. -/
theorem Coherent.flatten_perm (h : c.Coherent) :
    c.members.toList.flatten.Perm (List.range c.componentOf.size) := by
  rw [List.perm_ext_iff_of_nodup _ List.nodup_range]
  · intro v
    rw [List.mem_flatten, List.mem_range]
    constructor
    · rintro ⟨m, hm, hv⟩
      obtain ⟨k, hk, rfl⟩ := List.mem_iff_getElem.mp hm
      have hvk := (h.mem_iff k _ (by simp [Array.getElem?_eq_getElem hk]) v).mp hv
      exact (Array.getElem?_eq_some_iff.mp hvk).1
    · intro hv
      obtain ⟨m, hm, hvm⟩ :=
        h.componentOf_eq_iff.mp (Array.getElem?_eq_some_iff.mpr ⟨hv, rfl⟩)
      exact ⟨m, Array.mem_toList_iff.mpr (Array.mem_of_getElem? hm), hvm⟩
  · rw [List.nodup_flatten]
    refine ⟨fun m hm => ?_, h.pairwise_disjoint⟩
    exact (h.sorted m (Array.mem_toList_iff.mp hm)).imp Nat.ne_of_lt

end Components

namespace Digraph

variable {g : Digraph} {u v : Nat}

/-- The two passes on a closed graph, in the terms of `Labelled`. -/
theorem exists_componentsOf (hg : g.Closed) :
    ∃ labels count, Labelled g count labels ∧
      (∀ v < g.order, ∃ k < count, labels[v]? = some (some k)) ∧
      g.componentsOf =
        ⟨buckets count (labels.map fun label => count - 1 - label.getD 0).toList.zipIdx,
          labels.map fun label => count - 1 - label.getD 0⟩ := by
  obtain ⟨labels, count, hrun, hlabelled, hall⟩ :=
    exists_labelled_labelAll hg g.finishOrder [] rfl (labelled_replicate g) (by simp)
  refine ⟨labels, count, hlabelled, ?_, by rw [componentsOf, hrun]⟩
  intro v hv
  have hlt : v < labels.size := hlabelled.size_eq ▸ hv
  obtain ⟨k, hk⟩ := exists_label hlt (hall v (mem_finishOrder.mpr hv))
  exact ⟨k, (hlabelled.used k).mpr ⟨v, hk⟩, hk⟩

theorem size_componentOf (hg : g.Closed) : g.componentsOf.componentOf.size = g.order := by
  obtain ⟨labels, count, hlabelled, _, heq⟩ := exists_componentsOf hg
  simp [heq, hlabelled.size_eq]

theorem lt_order_of_componentOf (hg : g.Closed) {k : Nat}
    (hv : g.componentsOf.componentOf[v]? = some k) : v < g.order := by
  rw [← size_componentOf hg]
  exact (Array.getElem?_eq_some_iff.mp hv).1

/-- The members of each component and the component of each node tell the same. -/
theorem componentsOf_coherent (hg : g.Closed) : g.componentsOf.Coherent := by
  obtain ⟨labels, count, hlabelled, hall, heq⟩ := exists_componentsOf hg
  rw [heq]
  have hmembers : ∀ (k : Nat) (m : List Nat),
      (buckets count (labels.map fun label => count - 1 - label.getD 0).toList.zipIdx)[k]? =
        some m → m = (((labels.map fun label => count - 1 - label.getD 0).toList.zipIdx.filter
          fun pair => pair.1 = k).map Prod.snd) := by
    intro k m hm
    rw [getElem?_buckets] at hm
    by_cases hk : k < count
    · simpa [hk] using hm.symm
    · simp [hk] at hm
  refine ⟨?mem_iff, ?sorted, ?used⟩
  case mem_iff =>
    intro k m hm v
    rw [hmembers k m hm]
    simp [List.mem_zipIdx_iff_getElem?]
  case sorted =>
    intro m hm
    obtain ⟨k, hk⟩ := Array.mem_iff_getElem?.mp hm
    rw [hmembers k m hk]
    -- the members are a sublist of all nodes in order
    refine List.Pairwise.sublist (List.filter_sublist.map Prod.snd) ?_
    rw [List.zipIdx_map_snd]
    exact List.pairwise_lt_range'
  case used =>
    -- components are numbered against the order of the labels
    intro k
    simp only [size_buckets, Array.getElem?_map, Option.map_eq_some_iff]
    constructor
    · intro hk
      obtain ⟨v, hv⟩ := (hlabelled.used (count - 1 - k)).mp (by omega)
      exact ⟨v, some (count - 1 - k), hv, by simp; omega⟩
    · rintro ⟨v, label, hv, rfl⟩
      have hlt : v < g.order := hlabelled.size_eq ▸ (Array.getElem?_eq_some_iff.mp hv).1
      obtain ⟨k, hk, _⟩ := hall v hlt
      omega

/-- Every node is in a component. -/
theorem exists_componentOf (hg : g.Closed) (hv : v < g.order) :
    ∃ k, g.componentsOf.componentOf[v]? = some k := by
  rw [← size_componentOf hg] at hv
  exact ⟨_, Array.getElem?_eq_some_iff.mpr ⟨hv, rfl⟩⟩

/-- Two nodes are in the same component exactly when they are linked. -/
theorem componentOf_eq_iff_linked (hg : g.Closed) {j k : Nat}
    (hu : g.componentsOf.componentOf[u]? = some j) (hv : g.componentsOf.componentOf[v]? = some k) :
    j = k ↔ g.Linked u v := by
  obtain ⟨labels, count, hlabelled, hall, heq⟩ := exists_componentsOf hg
  obtain ⟨a, ha, hua⟩ := hall u (lt_order_of_componentOf hg hu)
  obtain ⟨b, hb, hvb⟩ := hall v (lt_order_of_componentOf hg hv)
  rw [← hlabelled.linked u v a b hua hvb]
  simp only [heq, Array.getElem?_map, hua, hvb, Option.map_some, Option.getD_some,
    Option.some.injEq] at hu hv
  omega

theorem same_componentsOf_iff (hg : g.Closed) (hu : u < g.order) (hv : v < g.order) :
    g.componentsOf.same u v = true ↔ g.Linked u v := by
  obtain ⟨j, hj⟩ := exists_componentOf hg hu
  obtain ⟨k, hk⟩ := exists_componentOf hg hv
  rw [← componentOf_eq_iff_linked hg hj hk, Components.same, hj, hk]
  simp

/-- What a node reaches is in its component or in a later one. -/
theorem componentOf_le_of_reaches (hg : g.Closed) {j k : Nat} (huv : g.Reaches u v)
    (hu : g.componentsOf.componentOf[u]? = some j)
    (hv : g.componentsOf.componentOf[v]? = some k) : j ≤ k := by
  obtain ⟨labels, count, hlabelled, hall, heq⟩ := exists_componentsOf hg
  obtain ⟨a, ha, hua⟩ := hall u (lt_order_of_componentOf hg hu)
  obtain ⟨b, hba, hvb⟩ := hlabelled.reaches hua huv
  simp only [heq, Array.getElem?_map, hua, hvb, Option.map_some, Option.getD_some,
    Option.some.injEq] at hu hv
  omega

theorem components_eq_ok (hg : g.Closed) : g.components = .ok g.componentsOf := by
  rw [components, check_eq_ok_iff.mpr hg]
  rfl

/-- The components of a closed graph are its strongly connected components: the lists of members
are not empty, ascend, have no node in common and hold every node once; the component of a node is
the one that has it as a member; and two nodes share a component exactly when each of them reaches
the other. -/
theorem components_stronglyConnected (g : Digraph) (hg : g.Closed) :
    ∃ c, g.components = .ok c ∧
      (∀ m ∈ c.members, m ≠ [] ∧ m.Pairwise (· < ·)) ∧
      c.members.toList.Pairwise List.Disjoint ∧
      c.members.toList.flatten.Perm (List.range g.order) ∧
      c.componentOf.size = g.order ∧
      (∀ v k : Nat, c.componentOf[v]? = some k ↔ ∃ m, c.members[k]? = some m ∧ v ∈ m) ∧
      ∀ a < g.order, ∀ b < g.order,
        ∃ answer, c.same? a b = .ok answer ∧ (answer = true ↔ g.Reaches a b ∧ g.Reaches b a) := by
  have hcoherent := componentsOf_coherent hg
  refine ⟨g.componentsOf, components_eq_ok hg, ?_, hcoherent.pairwise_disjoint, ?_,
    size_componentOf hg, fun v k => hcoherent.componentOf_eq_iff, ?_⟩
  · exact fun m hm => ⟨hcoherent.ne_nil hm, hcoherent.sorted m hm⟩
  · rw [← size_componentOf hg]
    exact hcoherent.flatten_perm
  · intro a ha b hb
    obtain ⟨j, hj⟩ := exists_componentOf hg ha
    obtain ⟨k, hk⟩ := exists_componentOf hg hb
    refine ⟨j == k, ?_, ?_⟩
    · rw [Components.same?, arrayAt_eq_ok_iff.mpr hj, arrayAt_eq_ok_iff.mpr hk]
      rfl
    · rw [beq_iff_eq, componentOf_eq_iff_linked hg hj hk]
      exact Iff.rfl

/-- Two nodes on a cycle with a doubled edge, and a third one with a loop. -/
theorem components_stronglyConnected_loop :
    (ofLists [[1, 1], [0, 2], [2]]).Closed ∧
      ∃ c, (ofLists [[1, 1], [0, 2], [2]]).components = .ok c ∧
        c.members.toList.flatten.Perm [0, 1, 2] ∧
        ∃ answer, c.same? 0 2 = .ok answer ∧
          (answer = true ↔ (ofLists [[1, 1], [0, 2], [2]]).Reaches 0 2 ∧
            (ofLists [[1, 1], [0, 2], [2]]).Reaches 2 0) := by
  have hg : (ofLists [[1, 1], [0, 2], [2]]).Closed := check_eq_ok_iff.mp rfl
  obtain ⟨c, hc, _, _, hperm, _, _, hsame⟩ := components_stronglyConnected _ hg
  exact ⟨hg, c, hc, hperm, hsame 0 (by decide) 2 (by decide)⟩

/-! ### The order of components -/

/-- A node and what it reaches have components, the second one no earlier than the first. They are
the same exactly when the way leads back. -/
theorem exists_componentOf_le (hg : g.Closed) (hu : u < g.order) (huv : g.Reaches u v) :
    ∃ i j : Nat, g.componentsOf.componentOf[u]? = some i ∧
      g.componentsOf.componentOf[v]? = some j ∧ i ≤ j ∧ (i = j ↔ g.Reaches v u) := by
  obtain ⟨i, hi⟩ := exists_componentOf hg hu
  obtain ⟨j, hj⟩ := exists_componentOf hg (hg.reaches_lt hu huv)
  refine ⟨i, j, hi, hj, componentOf_le_of_reaches hg huv hi hj, ?_⟩
  rw [componentOf_eq_iff_linked hg hi hj]
  exact ⟨And.right, And.intro huv⟩

/-- The components of a closed graph come in topological order. An edge leads to its own component
or to a later one, and it stays in its component exactly when its ends reach each other. What a node
reaches is therefore in its component or in a later one. -/
theorem components_topological (g : Digraph) (hg : g.Closed) :
    ∃ c, g.components = .ok c ∧ c.componentOf.size = g.order ∧
      (∀ u < g.order, ∀ v, g.Step u v → ∃ i j : Nat, c.componentOf[u]? = some i ∧
        c.componentOf[v]? = some j ∧ i ≤ j ∧ (i = j ↔ g.Reaches u v ∧ g.Reaches v u)) ∧
      ∀ u < g.order, ∀ v, g.Reaches u v → ∃ i j : Nat, c.componentOf[u]? = some i ∧
        c.componentOf[v]? = some j ∧ i ≤ j := by
  refine ⟨g.componentsOf, components_eq_ok hg, size_componentOf hg, ?edge, ?walk⟩
  case edge =>
    intro u hu v hstep
    have huv : g.Reaches u v := .single hstep
    obtain ⟨i, j, hi, hj, hle, heq⟩ := exists_componentOf_le hg hu huv
    exact ⟨i, j, hi, hj, hle, heq.trans (and_iff_right huv).symm⟩
  case walk =>
    intro u hu v huv
    obtain ⟨i, j, hi, hj, hle, _⟩ := exists_componentOf_le hg hu huv
    exact ⟨i, j, hi, hj, hle⟩

/-- The last node leads into a cycle, and the cycle by two parallel edges to a node with a loop. -/
theorem components_topological_chain :
    (ofLists [[1], [0, 2, 2], [2], [0]]).Closed ∧
      ∃ c, (ofLists [[1], [0, 2, 2], [2], [0]]).components = .ok c ∧
        ∃ i j : Nat, c.componentOf[3]? = some i ∧ c.componentOf[0]? = some j ∧ i ≤ j ∧
          (i = j ↔ (ofLists [[1], [0, 2, 2], [2], [0]]).Reaches 3 0 ∧
            (ofLists [[1], [0, 2, 2], [2], [0]]).Reaches 0 3) := by
  have hg : (ofLists [[1], [0, 2, 2], [2], [0]]).Closed := check_eq_ok_iff.mp rfl
  obtain ⟨c, hc, _, hedge, _⟩ := components_topological _ hg
  exact ⟨hg, c, hc, hedge 3 (by decide) 0 (by decide)⟩

end Digraph

end LockOrder
