import LockOrder.Graph.Edit
import LockOrder.Proofs.Digraph.Cycles
import LockOrder.Proofs.Graph.Basic
import LockOrder.Proofs.Recorder.Finish

/-!
# Finding deadlocks

A deadlock can come about when classes of locks are taken in a circle. The cycles of a recorded
graph show just that: a class is on a cycle when it precedes another class, perhaps through others,
and is preceded by it. A program that takes its locks in some fixed order of their classes has no
cycles.

## Main results

* `Recorder.finish_closed` — no edge of a recorded graph leads out of it
* `Recorder.reaches_finish_iff` — reachability in a recorded graph is reachability along the log
* `Recorder.cycles_finish_iff_precedes` — the cycles of a recorded graph are the circles of classes
  that precede each other
-/

namespace LockOrder

open Relation

/-- Only steps between different elements count for reachability. -/
theorem reflTransGen_congr_of_ne {α : Type} {p q : α → α → Prop}
    (h : ∀ a b, a ≠ b → (p a b ↔ q a b)) {a b : α} : ReflTransGen p a b ↔ ReflTransGen q a b := by
  have hmono : ∀ {p q : α → α → Prop}, (∀ a b, a ≠ b → (p a b ↔ q a b)) →
      ReflTransGen p a b → ReflTransGen q a b := by
    intro p q h hpath
    induction hpath with
    | refl => exact .refl
    | @tail b c _ hstep ih =>
      by_cases hbc : b = c
      · exact hbc ▸ ih
      · exact ih.tail ((h b c hbc).mp hstep)
  exact ⟨hmono h, hmono fun a b hab => (h a b hab).symm⟩

namespace Recorder

variable {r : Recorder} {log : List Sighting} {u v : Nat} {X Y : String}

/-- The log has an entry from one label to another. -/
def Logged (log : List Sighting) (source target : String) : Prop :=
  ∃ s ∈ log, s.source = source ∧ s.target = target

/-! ### The recorded graph as a directed graph -/

theorem order_finish : r.finish.digraph.order = r.classOrder.length := by
  simp [finish, Graph.digraph, Graph.nodeCount]

/-- No edge of a recorded graph leads out of it. -/
theorem finish_closed (h : Tracks r.classes log) : r.finish.digraph.Closed := by
  refine ⟨by simp [finish, Graph.digraph, Graph.nodeCount], fun u _ v hv => ?_⟩
  obtain ⟨i, hi⟩ := Graph.step_digraph_iff.mp hv
  obtain ⟨c, edge, _, hout⟩ := targetAt_finish_iff.mp hi
  obtain ⟨k, hk, d, evidence, hd, rfl, _⟩ := (mem_outEdges h).mp (List.mem_of_getElem? hout)
  rw [order_finish]
  exact List.idxOf_lt_length_of_mem (mem_classOrder.mpr (h.inside c k hk d evidence hd))

theorem exists_label_of_lt (hv : v < r.finish.digraph.order) :
    ∃ A, r.finish.labels[v]? = some A :=
  ⟨_, Array.getElem?_eq_some_iff.mpr ⟨hv, rfl⟩⟩

theorem lt_of_label (hv : r.finish.labels[v]? = some X) : v < r.finish.digraph.order :=
  (Array.getElem?_eq_some_iff.mp hv).1

/-- Steps between nodes are log entries between their labels. -/
theorem step_finish_iff (h : Tracks r.classes log) (hu : r.finish.labels[u]? = some X)
    (hv : r.finish.labels[v]? = some Y) : r.finish.digraph.Step u v ↔ Logged log X Y := by
  rw [Logged, ← exists_joins_iff_logged h, Graph.step_digraph_iff]
  constructor
  · rintro ⟨i, hi⟩
    exact ⟨⟨u, i⟩, hu, v, hi, hv⟩
  · rintro ⟨⟨u', i⟩, hsource, v', htarget, hv'⟩
    obtain rfl := node_unique h hsource hu
    obtain rfl := node_unique h hv' hv
    exact ⟨i, htarget⟩

/-- The labels of a log entry are labels of nodes. -/
theorem exists_nodes_of_logged (h : Tracks r.classes log) (hlogged : Logged log X Y) :
    (∃ u : Nat, r.finish.labels[u]? = some X) ∧ ∃ v : Nat, r.finish.labels[v]? = some Y := by
  obtain ⟨e, hsource, v, _, htarget⟩ := (exists_joins_iff_logged h).mpr hlogged
  exact ⟨⟨_, hsource⟩, v, htarget⟩

/-- Reachability between nodes is reachability along the log between their labels. -/
theorem reaches_finish_iff (h : Tracks r.classes log) (hu : r.finish.labels[u]? = some X)
    (hv : r.finish.labels[v]? = some Y) :
    r.finish.digraph.Reaches u v ↔ ReflTransGen (Logged log) X Y := by
  constructor
  · intro hreach
    induction hreach generalizing Y with
    | refl =>
      obtain rfl := Option.some.inj (hu.symm.trans hv)
      exact .refl
    | @tail w v hpath hstep ih =>
      have hw := (finish_closed h).reaches_lt (lt_of_label hu) hpath
      obtain ⟨W, hW⟩ := exists_label_of_lt hw
      exact (ih hW).tail ((step_finish_iff h hW hv).mp hstep)
  · intro hpath
    induction hpath generalizing v with
    | refl =>
      obtain rfl := node_unique h hu hv
      exact .refl
    | @tail W Y _ hlogged ih =>
      obtain ⟨⟨w, hw⟩, _⟩ := exists_nodes_of_logged h hlogged
      exact ReflTransGen.tail (ih hw) ((step_finish_iff h hw hv).mpr hlogged)

/-- A label from which another one is reached along the log is the label of a node. -/
theorem exists_node_of_reaches (h : Tracks r.classes log) (hne : X ≠ Y)
    (hpath : ReflTransGen (Logged log) X Y) : ∃ u : Nat, r.finish.labels[u]? = some X := by
  rcases hpath.cases_head with rfl | ⟨Z, hlogged, _⟩
  · exact absurd rfl hne
  · exact (exists_nodes_of_logged h hlogged).1

/-! ### Cycles -/

/-- The labels of the nodes on cycles are those that reach another label and are reached back. -/
theorem label_mem_cyclicNodes_iff (h : Tracks r.classes log) :
    (∃ v ∈ Digraph.cyclicNodes r.finish.digraph.componentsOf, r.finish.labels[v]? = some X) ↔
      ∃ Y, Y ≠ X ∧ ReflTransGen (Logged log) X Y ∧ ReflTransGen (Logged log) Y X := by
  have hclosed := finish_closed h
  constructor
  · rintro ⟨v, hv, hX⟩
    obtain ⟨hlt, w, hne, hvw, hwv⟩ := (Digraph.mem_cyclicNodes hclosed).mp hv
    obtain ⟨Y, hY⟩ := exists_label_of_lt (hclosed.reaches_lt hlt hvw)
    refine ⟨Y, ?_, (reaches_finish_iff h hX hY).mp hvw, (reaches_finish_iff h hY hX).mp hwv⟩
    rintro rfl
    exact hne (node_unique h hY hX)
  · rintro ⟨Y, hne, hXY, hYX⟩
    obtain ⟨v, hX⟩ := exists_node_of_reaches h hne.symm hXY
    obtain ⟨w, hY⟩ := exists_node_of_reaches h hne hYX
    refine ⟨v, (Digraph.mem_cyclicNodes hclosed).mpr ⟨lt_of_label hX, w, ?_, ?_, ?_⟩, hX⟩
    · rintro rfl
      exact hne (Option.some.inj (hY.symm.trans hX))
    · exact (reaches_finish_iff h hX hY).mpr hXY
    · exact (reaches_finish_iff h hY hX).mpr hYX

/-- An edge between different labels is on a cycle when its target reaches its source. -/
theorem joins_mem_cycleEdges_iff (h : Tracks r.classes log) (hne : X ≠ Y) :
    (∃ e ∈ (r.finish.digraph.cyclesIn r.finish.digraph.componentsOf).edges,
        r.finish.Joins e X Y) ↔
      Logged log X Y ∧ ReflTransGen (Logged log) Y X := by
  have hclosed := finish_closed h
  constructor
  · rintro ⟨e, he, hjoins⟩
    obtain ⟨_, w, hw, hback⟩ := (Digraph.mem_cycleEdges hclosed).mp he
    refine ⟨(exists_joins_iff_logged h).mp ⟨e, hjoins⟩, ?_⟩
    obtain ⟨hX, w', hw', hY⟩ := hjoins
    obtain rfl := Option.some.inj (hw.symm.trans (Graph.targetAt_eq_ok_iff.mp hw'))
    exact (reaches_finish_iff h hY hX).mp hback
  · rintro ⟨hlogged, hback⟩
    obtain ⟨e, hjoins⟩ := (exists_joins_iff_logged h).mpr hlogged
    obtain ⟨hX, w, hw, hY⟩ := hjoins
    have hw' := Graph.targetAt_eq_ok_iff.mp hw
    have hreach := (reaches_finish_iff h hY hX).mpr hback
    have hstep : r.finish.digraph.Reaches e.node w := .single (List.mem_of_getElem? hw')
    have hnode : e.node ∈ Digraph.cyclicNodes r.finish.digraph.componentsOf := by
      refine (Digraph.mem_cyclicNodes hclosed).mpr ⟨lt_of_label hX, w, ?_, hstep, hreach⟩
      rintro rfl
      exact hne (Option.some.inj (hX.symm.trans hY))
    exact ⟨e, (Digraph.mem_cycleEdges hclosed).mpr ⟨hnode, w, hw', hreach⟩, hX, w, hw, hY⟩

/-- Along an order that all steps between different labels respect, a path only rises. -/
theorem eq_or_lt_of_reflTransGen {p lt : String → String → Prop}
    (htrans : ∀ X Y Z, lt X Y → lt Y Z → lt X Z) (hp : ∀ X Y, X ≠ Y → p X Y → lt X Y)
    (hpath : ReflTransGen p X Y) : X = Y ∨ lt X Y := by
  induction hpath with
  | refl => exact .inl rfl
  | @tail Y Z _ hstep ih =>
    by_cases hYZ : Y = Z
    · exact hYZ ▸ ih
    · have hlt := hp Y Z hYZ hstep
      rcases ih with rfl | ih
      · exact .inr hlt
      · exact .inr (htrans X Y Z ih hlt)

/-- The cycles of a recorded graph are the circles of classes that precede each other: a label is
that of a node on a cycle exactly when it reaches another label and is reached back, and an edge
between different labels is on a cycle exactly when the one precedes the other and is reached back.
A run that respects some strict order of the labels has no cycles. -/
theorem cycles_finish_iff_precedes (table : StackTable) (calls : List Call) :
    let g := ((empty table).run calls).finish
    let R := Ledger.Precedes calls
    ∃ set, g.cycles = .ok set ∧
      (∀ A, (∃ v ∈ set.nodes, g.labels[v]? = some A) ↔
        ∃ B, B ≠ A ∧ ReflTransGen R A B ∧ ReflTransGen R B A) ∧
      (∀ X Y, X ≠ Y → ((∃ e ∈ set.edges, g.Joins e X Y) ↔ R X Y ∧ ReflTransGen R Y X)) ∧
      ∀ lt : String → String → Prop, (∀ X, ¬ lt X X) → (∀ X Y Z, lt X Y → lt Y Z → lt X Z) →
        (∀ X Y, X ≠ Y → R X Y → lt X Y) → set.nodes = [] ∧ set.edges = [] := by
  intro g R
  have htracks := (mirrors_run table calls).tracks
  have hR : ∀ X Y, X ≠ Y → (R X Y ↔ Logged (Ledger.replay calls).log X Y) :=
    fun X Y hne => Ledger.precedes_iff_logged hne
  have hpath : ∀ X Y, ReflTransGen R X Y ↔ ReflTransGen (Logged (Ledger.replay calls).log) X Y :=
    fun X Y => reflTransGen_congr_of_ne hR
  have hnodes : ∀ A, (∃ v ∈ Digraph.cyclicNodes g.digraph.componentsOf, g.labels[v]? = some A) ↔
      ∃ B, B ≠ A ∧ ReflTransGen R A B ∧ ReflTransGen R B A := by
    intro A
    simp only [hpath]
    exact label_mem_cyclicNodes_iff htracks
  refine ⟨_, Digraph.cycles_eq_ok (finish_closed htracks), hnodes, ?_, ?_⟩
  · intro X Y hne
    rw [hR X Y hne, hpath]
    exact joins_mem_cycleEdges_iff htracks hne
  · intro lt hirrefl htrans hlt
    have hnil : Digraph.cyclicNodes g.digraph.componentsOf = [] := by
      refine List.eq_nil_iff_forall_not_mem.mpr fun v hv => ?_
      obtain ⟨A, hA⟩ := exists_label_of_lt
        ((Digraph.mem_cyclicNodes (finish_closed htracks)).mp hv).1
      obtain ⟨B, hne, hAB, hBA⟩ := (hnodes A).mp ⟨v, hv, hA⟩
      have hup := (eq_or_lt_of_reflTransGen htrans hlt hAB).resolve_left hne.symm
      have hdown := (eq_or_lt_of_reflTransGen htrans hlt hBA).resolve_left hne
      exact hirrefl A (htrans A B A hup hdown)
    exact ⟨hnil, by simp [Digraph.cyclesIn, hnil]⟩

/-- A run that takes one lock inside another respects an order, and has no cycles. When another
thread then takes the same locks the other way round, both classes and the edges between them are on
a cycle. -/
theorem cycles_finish_iff_precedes_opposite :
    let nested : List Call := [.acquireLabeled 0 0 ⟨[]⟩ "a" 0, .acquireLabeled 0 1 ⟨[]⟩ "b" 0]
    let opposite : List Call :=
      nested ++ [.acquireLabeled 1 1 ⟨[]⟩ "b" 0, .acquireLabeled 1 0 ⟨[]⟩ "a" 0]
    let g := ((empty .empty).run opposite).finish
    (Ledger.Precedes nested "a" "b" ∧
      ∃ set, ((empty .empty).run nested).finish.cycles = .ok set ∧
        set.nodes = [] ∧ set.edges = []) ∧
    Ledger.Precedes opposite "a" "b" ∧ Ledger.Precedes opposite "b" "a" ∧
      ∃ set, g.cycles = .ok set ∧
        (∃ v ∈ set.nodes, g.labels[v]? = some "a") ∧ (∃ v ∈ set.nodes, g.labels[v]? = some "b") ∧
        (∃ e ∈ set.edges, g.Joins e "a" "b") ∧ ∃ e ∈ set.edges, g.Joins e "b" "a" := by
  intro nested opposite g
  have hnested : (Ledger.replay nested).log = [⟨"a", "b", ⟨[]⟩, ⟨[]⟩⟩] := by decide
  have hopposite : (Ledger.replay opposite).log =
      [⟨"a", "b", ⟨[]⟩, ⟨[]⟩⟩, ⟨"b", "a", ⟨[]⟩, ⟨[]⟩⟩] := by decide
  refine ⟨⟨(Ledger.precedes_iff_logged (by decide)).mpr (by simp [hnested]), ?_⟩, ?_⟩
  · obtain ⟨set, hset, _, _, hordered⟩ := cycles_finish_iff_precedes .empty nested
    refine ⟨set, hset, hordered (fun X Y => X = "a" ∧ Y = "b") ?_ ?_ ?_⟩
    · rintro X ⟨rfl, heq⟩
      exact absurd heq (by decide)
    · rintro X Y Z ⟨_, rfl⟩ ⟨heq, _⟩
      exact absurd heq (by decide)
    · intro X Y hne hXY
      obtain ⟨s, hs, rfl, rfl⟩ := (Ledger.precedes_iff_logged hne).mp hXY
      simp_all
  · have hab : Ledger.Precedes opposite "a" "b" :=
      (Ledger.precedes_iff_logged (by decide)).mpr (by simp [hopposite])
    have hba : Ledger.Precedes opposite "b" "a" :=
      (Ledger.precedes_iff_logged (by decide)).mpr (by simp [hopposite])
    obtain ⟨set, hset, hnodes, hedges, _⟩ := cycles_finish_iff_precedes .empty opposite
    exact ⟨hab, hba, set, hset,
      (hnodes "a").mpr ⟨"b", by decide, .single hab, .single hba⟩,
      (hnodes "b").mpr ⟨"a", by decide, .single hba, .single hab⟩,
      (hedges "a" "b" (by decide)).mpr ⟨hab, .single hba⟩,
      (hedges "b" "a" (by decide)).mpr ⟨hba, .single hab⟩⟩

end Recorder

end LockOrder
