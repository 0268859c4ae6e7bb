import LockOrder.Proofs.Recorder.Deadlock
import LockOrder.Proofs.Recorder.Interleaving
import Mathlib.Data.List.Sort

/-!
# The recorded graph in canonical order

The nodes of a recorded graph ascend by label, and the out-edges of a node ascend by target. So the
labels and the targets are determined by which labels were taken and which of them the log joins,
and the evidence of an edge by the entries of the log, up to the order of its pairs. Accounts that
agree therefore give one graph: it does not matter how the calls of independent threads were
interleaved.

## Main results

* `Recorder.sorted_labels_finish`, `Recorder.sorted_targets_finish` — labels and targets ascend
* `Recorder.Mirrors.finish_labels_eq`, `Recorder.Mirrors.finish_targets_eq` — accounts that agree
  give the same nodes and the same edges
* `Recorder.finish_eq_of_interleaved` — the order in which independent threads run does not matter
-/

namespace LockOrder

/-- The order of what was seen shows in the order of the pairs only. -/
theorem Evidence.toEdge_ofSightings_perm {seen seen' : List (Stack × Stack)} (h : seen.Perm seen') :
    (ofSightings seen).toEdge.pairs.Perm (ofSightings seen').toEdge.pairs := by
  rw [List.perm_ext_iff_of_nodup (nodup_toEdge seen) (nodup_toEdge seen')]
  intro pair
  rw [mem_toEdge_iff, mem_toEdge_iff, h.count_eq]

namespace Recorder

variable {r r' : Recorder} {l l' : Ledger} {log : List Sighting} {c i : Nat}

/-! ### Ascending labels and targets -/

/-- Sorting by a key puts the keys in order. -/
theorem pairwise_mergeSort_key {α β : Type} [LE β] [DecidableLE β] (key : α → β)
    (htrans : ∀ a b c : β, a ≤ b → b ≤ c → a ≤ c) (htotal : ∀ a b : β, a ≤ b ∨ b ≤ a)
    (xs : List α) :
    (xs.mergeSort fun a b => key a ≤ key b).Pairwise fun a b => key a ≤ key b := by
  refine (List.pairwise_mergeSort ?_ ?_ xs).imp of_decide_eq_true
  · intro a b c hab hbc
    exact decide_eq_true (htrans _ _ _ (of_decide_eq_true hab) (of_decide_eq_true hbc))
  · intro a b
    simpa using htotal (key a) (key b)

theorem pairwise_classOrder (r : Recorder) :
    r.classOrder.Pairwise fun c d => r.labelOf c ≤ r.labelOf d :=
  pairwise_mergeSort_key r.labelOf (fun _ _ _ => String.le_trans) String.le_total _

/-- The labels of a recorded graph ascend. -/
theorem sorted_labels_finish (h : Tracks r.classes log) :
    r.finish.labels.toList.Pairwise (· < ·) := by
  have hle : r.finish.labels.toList.Pairwise (· ≤ ·) := by
    simpa [finish, List.pairwise_map] using r.pairwise_classOrder
  refine (hle.and (nodup_labels_finish h)).imp fun {A B} hAB => ?_
  by_contra hlt
  exact hAB.2 (String.le_antisymm hAB.1 (String.not_lt.mp hlt))

theorem pairwise_outEdges (r : Recorder) (order : List Nat) (c : Nat) :
    (r.outEdges order c).Pairwise fun a b => a.1 ≤ b.1 := by
  rw [outEdges]
  cases r.classes[c]? with
  | none => exact List.Pairwise.nil
  | some k => exact pairwise_mergeSort_key Prod.fst (fun _ _ _ => Nat.le_trans) Nat.le_total _

/-- The targets of the out-edges of a class ascend. -/
theorem sorted_outEdges (h : Tracks r.classes log) (c : Nat) :
    ((r.outEdges r.classOrder c).map Prod.fst).Pairwise (· < ·) := by
  have hle : ((r.outEdges r.classOrder c).map Prod.fst).Pairwise (· ≤ ·) := by
    rw [List.pairwise_map]
    exact r.pairwise_outEdges r.classOrder c
  exact (hle.and (nodup_outEdges h c)).imp fun hab => Nat.lt_of_le_of_ne hab.1 hab.2

theorem sorted_targets_finish (h : Tracks r.classes log) (v : Nat) :
    (r.finish.digraph.targets v).Pairwise (· < ·) := by
  have htargets : r.finish.targets[v]? =
      r.classOrder[v]?.map fun c => (r.outEdges r.classOrder c).map Prod.fst := by
    simp [finish, Function.comp_def]
  rw [Digraph.targets, Graph.digraph, Array.getD_eq_getD_getElem?, htargets]
  cases r.classOrder[v]? with
  | none => exact List.Pairwise.nil
  | some c => exact sorted_outEdges h c

/-! ### Accounts that agree -/

/-- Accounts that agree give the same nodes. -/
theorem Mirrors.finish_labels_eq (h : Mirrors r l) (h' : Mirrors r' l') (hl : l.Agrees l') :
    r.finish.labels = r'.finish.labels := by
  refine Array.toList_inj.mp ?_
  refine (sorted_labels_finish h.tracks).eq_of_mem_iff (sorted_labels_finish h'.tracks) fun A => ?_
  rw [Array.mem_toList_iff, Array.mem_toList_iff, mem_labels_finish_iff, mem_labels_finish_iff,
    ← h.taken_iff, ← h'.taken_iff, hl.taken_perm.mem_iff]

/-- The steps from a node are the log entries from its label. -/
theorem step_finish_iff_exists (h : Tracks r.classes log) {u v : Nat} {X : String}
    (hu : r.finish.labels[u]? = some X) :
    r.finish.digraph.Step u v ↔ ∃ Y, r.finish.labels[v]? = some Y ∧ Logged log X Y := by
  constructor
  · intro hstep
    obtain ⟨Y, hY⟩ := exists_label_of_lt ((finish_closed h).inside u (lt_of_label hu) v hstep)
    exact ⟨Y, hY, (step_finish_iff h hu hY).mp hstep⟩
  · rintro ⟨Y, hY, hlogged⟩
    exact (step_finish_iff h hu hY).mpr hlogged

/-- Accounts that agree give the same edges. -/
theorem Mirrors.finish_targets_eq (h : Mirrors r l) (h' : Mirrors r' l') (hl : l.Agrees l') :
    r.finish.targets = r'.finish.targets := by
  have hlabels := h.finish_labels_eq h' hl
  have hsize : ∀ r : Recorder, r.finish.targets.size = r.finish.labels.size := fun r => by
    simp [finish]
  refine Array.ext (by rw [hsize, hsize, hlabels]) fun v hv hv' => ?_
  have htargets : r.finish.digraph.targets v = r'.finish.digraph.targets v := by
    obtain ⟨X, hX⟩ : ∃ X, r.finish.labels[v]? = some X :=
      exists_label_of_lt (Nat.lt_of_lt_of_eq hv (hsize r))
    refine (sorted_targets_finish h.tracks v).eq_of_mem_iff (sorted_targets_finish h'.tracks v)
      fun t => ?_
    change r.finish.digraph.Step v t ↔ r'.finish.digraph.Step v t
    rw [step_finish_iff_exists h.tracks hX, step_finish_iff_exists h'.tracks (hlabels ▸ hX),
      hlabels]
    simp only [Logged, hl.log_perm.mem_iff]
  simpa [Graph.digraph, Digraph.targets, hv, hv'] using htargets

/-- Accounts that agree give the same evidence for each edge, up to the order of the pairs. -/
theorem Mirrors.finish_evidence_perm (h : Mirrors r l) (h' : Mirrors r' l') (hl : l.Agrees l')
    {e : EdgeId} {edge edge' : Edge} (hedge : r.finish.edgeAt e = .ok edge)
    (hedge' : r'.finish.edgeAt e = .ok edge') : edge.pairs.Perm edge'.pairs := by
  obtain ⟨A, B, hjoins⟩ := exists_joins_of_edgeAt h.tracks hedge
  have hjoins' : r'.finish.Joins e A B := by
    obtain ⟨hsource, t, htarget, ht⟩ := hjoins
    rw [h.finish_labels_eq h' hl] at hsource ht
    rw [Graph.targetAt, h.finish_targets_eq h' hl] at htarget
    exact ⟨hsource, t, htarget, ht⟩
  -- both edges are made of the log entries between the two labels
  obtain rfl := Except.ok.inj ((edgeAt_of_joins h.tracks hjoins).symm.trans hedge)
  obtain rfl := Except.ok.inj ((edgeAt_of_joins h'.tracks hjoins').symm.trans hedge')
  exact Evidence.toEdge_ofSightings_perm (hl.log_perm.filterMap _)

/-- A recorded graph has evidence for each edge. -/
theorem degree_finish (r : Recorder) (v : Nat) :
    r.finish.edges[v]?.map List.length = r.finish.targets[v]?.map List.length := by
  simp [finish, Function.comp_def]

/-- Accounts that agree give evidence for the same edges, and the same pairs for each. -/
theorem Mirrors.finish_edges_perm (h : Mirrors r l) (h' : Mirrors r' l') (hl : l.Agrees l') :
    List.Forall₂ (List.Forall₂ fun edge edge' => edge.pairs.Perm edge'.pairs)
      r.finish.edges.toList r'.finish.edges.toList := by
  have htargets := h.finish_targets_eq h' hl
  have hsize : ∀ r : Recorder, r.finish.edges.toList.length = r.finish.targets.size := fun r => by
    simp [finish]
  refine forall₂_of_getElem? (by rw [hsize, hsize, htargets]) fun v edges edges' hv hv' => ?_
  rw [Array.getElem?_toList] at hv hv'
  have hdegree : some edges.length = some edges'.length := by
    have hlength := r.degree_finish v
    rwa [htargets, ← r'.degree_finish v, hv, hv'] at hlength
  refine forall₂_of_getElem? (Option.some.inj hdegree) fun i edge edge' hi hi' => ?_
  exact h.finish_evidence_perm h' hl (e := ⟨v, i⟩) (Graph.edgeAt_eq_ok_iff.mpr ⟨edges, hv, hi⟩)
    (Graph.edgeAt_eq_ok_iff.mpr ⟨edges', hv', hi'⟩)

theorem Mirrors.heldCount_eq (h : Mirrors r l) (thread : Nat) :
    r.heldCount thread = (l.held thread).length := by
  rw [h.held_eq, List.length_map]
  rfl

/-! ### Interleavings -/

/-- The calls that give locks their labels. -/
def naming (names : List (Nat × String)) : List Call :=
  names.map fun name => .name name.1 name.2

/-- **The order in which independent threads run does not matter.** After the same labels were given
to locks, two runs in which every thread makes the same calls, in the same order but interleaved in
any way, are recorded as graphs with the same labels and the same targets, and with the same pairs
of stacks and the same counts for each edge. Every thread holds the same number of locks in the
end. -/
theorem finish_eq_of_interleaved (table : StackTable) (names : List (Nat × String))
    (calls calls' : List Call) (hcalls : ∀ call ∈ calls, call.thread? ≠ none)
    (hcalls' : ∀ call ∈ calls', call.thread? ≠ none)
    (hsame : ∀ thread, (calls.filter fun call => call.thread? = some thread) =
      calls'.filter fun call => call.thread? = some thread) :
    let r := (empty table).run (naming names ++ calls)
    let r' := (empty table).run (naming names ++ calls')
    r.finish.labels = r'.finish.labels ∧ r.finish.targets = r'.finish.targets ∧
      List.Forall₂ (List.Forall₂ fun edge edge' => edge.pairs.Perm edge'.pairs)
        r.finish.edges.toList r'.finish.edges.toList ∧
      ∀ thread, r.heldCount thread = r'.heldCount thread := by
  intro r r'
  have hagrees : (Ledger.replay (naming names ++ calls)).Agrees
      (Ledger.replay (naming names ++ calls')) := by
    rw [Ledger.replay, Ledger.replay, List.foldl_append, List.foldl_append]
    exact Ledger.agrees_of_same_threads _
      (fun call hcall => Option.ne_none_iff_exists'.mp (hcalls call hcall))
      (fun call hcall => Option.ne_none_iff_exists'.mp (hcalls' call hcall)) hsame
  have h := mirrors_run table (naming names ++ calls)
  have h' := mirrors_run table (naming names ++ calls')
  -- the recorders mirror accounts that agree; how they came about is forgotten here
  refine ⟨h.finish_labels_eq h' hagrees, h.finish_targets_eq h' hagrees,
    h.finish_edges_perm h' hagrees, fun thread => ?_⟩
  rw [h.heldCount_eq, h'.heldCount_eq, hagrees.held_eq]

/-- Two threads that take two locks in opposite orders, one after the other and by turns. -/
theorem finish_eq_of_interleaved_opposite :
    let a : Stack := ⟨[.unresolved "a"]⟩
    let b : Stack := ⟨[.unresolved "b"]⟩
    let calls : List Call := [.acquire 1 10 a, .acquireLabeled 1 20 a "x" 1, .release 1 10,
      .acquire 2 20 b, .mayAcquire 2 10 b]
    let calls' : List Call := [.acquire 2 20 b, .acquire 1 10 a, .mayAcquire 2 10 b,
      .acquireLabeled 1 20 a "x" 1, .release 1 10]
    let r := (empty .empty).run (naming [(20, "x")] ++ calls)
    let r' := (empty .empty).run (naming [(20, "x")] ++ calls')
    r.finish.labels = r'.finish.labels ∧ r.finish.targets = r'.finish.targets ∧
      List.Forall₂ (List.Forall₂ fun edge edge' => edge.pairs.Perm edge'.pairs)
        r.finish.edges.toList r'.finish.edges.toList ∧
      ∀ thread, r.heldCount thread = r'.heldCount thread := by
  intro a b calls calls'
  refine finish_eq_of_interleaved .empty [(20, "x")] calls calls' (by decide) (by decide) ?_
  intro thread
  by_cases hone : thread = 1
  · subst hone
    rfl
  · by_cases htwo : thread = 2
    · subst htwo
      rfl
    · simp [calls, calls', Call.thread?, Ne.symm hone, Ne.symm htwo]

end Recorder

end LockOrder
