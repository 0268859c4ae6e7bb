import LockOrder.Proofs.Position
import LockOrder.Proofs.Outcome
import LockOrder.Proofs.Recorder.Replay

/-!
# The recorded graph and the log

A recorded graph has a node for each label that a lock was taken under and an edge for each pair of
labels that the log speaks of. Classes are renumbered by their labels and targets by their nodes; as
labels are distinct and so are targets, no edge is lost or doubled on the way.

## Main definitions

* `Graph.Joins` — an edge leads from a node with one label to a node with another

## Main results

* `Recorder.joins_finish_iff` — the edges of a recorded graph are the evidence between classes
* `Recorder.finish_records_log` — a recorded graph holds what the log of its run says
-/

namespace LockOrder

/-- An edge leads from a node with the label `source` to a node with the label `target`. -/
structure Graph.Joins (g : Graph) (e : EdgeId) (source target : String) : Prop where
  /-- The label of its source. -/
  source_eq : g.labels[e.node]? = some source
  /-- The label of its target. -/
  target_eq : ∃ node, g.targetAt e = .ok node ∧ g.labels[node]? = some target

namespace Recorder

variable {r : Recorder} {log : List Sighting} {c d i t : Nat} {A B : String} {e : EdgeId}
  {edge : Edge}

/-! ### Nodes -/

theorem classOrder_perm (r : Recorder) : r.classOrder.Perm (List.range r.classes.size) :=
  List.mergeSort_perm _ _

theorem mem_classOrder : c ∈ r.classOrder ↔ c < r.classes.size := by
  rw [r.classOrder_perm.mem_iff, List.mem_range]

theorem nodup_classOrder (r : Recorder) : r.classOrder.Nodup :=
  r.classOrder_perm.nodup_iff.mpr List.nodup_range

theorem classOrder_inj {j : Nat} (hi : r.classOrder[i]? = some c) (hj : r.classOrder[j]? = some c) :
    i = j := by
  obtain ⟨hi, rfl⟩ := List.getElem?_eq_some_iff.mp hi
  obtain ⟨hj, heq⟩ := List.getElem?_eq_some_iff.mp hj
  exact (r.nodup_classOrder.getElem_inj_iff.mp heq).symm

theorem getElem?_idxOf_classOrder (hc : c < r.classes.size) :
    r.classOrder[r.classOrder.idxOf c]? = some c :=
  List.getElem?_idxOf (mem_classOrder.mpr hc)

theorem classLabel?_eq_labelOf (hc : c < r.classes.size) :
    classLabel? r.classes c = some (r.labelOf c) := by
  simp [classLabel?, labelOf, hc]

/-- The node of a class has its label. -/
theorem labels_finish_eq_some_iff :
    r.finish.labels[i]? = some A ↔
      ∃ c, r.classOrder[i]? = some c ∧ classLabel? r.classes c = some A := by
  have hget : r.finish.labels[i]? = r.classOrder[i]?.map r.labelOf := by simp [finish]
  rw [hget, Option.map_eq_some_iff]
  refine exists_congr fun c => and_congr_right fun hc => ?_
  rw [classLabel?_eq_labelOf (mem_classOrder.mp (List.mem_of_getElem? hc)), Option.some.injEq]

theorem node_unique {j : Nat} (h : Tracks r.classes log) (hi : r.finish.labels[i]? = some A)
    (hj : r.finish.labels[j]? = some A) : i = j := by
  obtain ⟨c, hc, hcA⟩ := labels_finish_eq_some_iff.mp hi
  obtain ⟨d, hd, hdA⟩ := labels_finish_eq_some_iff.mp hj
  obtain rfl := h.label_inj c d A hcA hdA
  exact classOrder_inj hc hd

theorem nodup_labels_finish (h : Tracks r.classes log) : r.finish.labels.toList.Nodup := by
  refine r.nodup_classOrder.map_on fun c hc d hd heq => ?_
  have hcA := classLabel?_eq_labelOf (mem_classOrder.mp hc)
  have hdA := classLabel?_eq_labelOf (mem_classOrder.mp hd)
  exact h.label_inj c d _ hcA (heq ▸ hdA)

theorem mem_labels_finish_iff : A ∈ r.finish.labels ↔ ∃ c, classLabel? r.classes c = some A := by
  rw [Array.mem_iff_getElem?]
  constructor
  · rintro ⟨i, hi⟩
    obtain ⟨c, _, hc⟩ := labels_finish_eq_some_iff.mp hi
    exact ⟨c, hc⟩
  · rintro ⟨c, hc⟩
    have horder := getElem?_idxOf_classOrder (lt_of_classLabel?_eq_some hc)
    exact ⟨_, labels_finish_eq_some_iff.mpr ⟨c, horder, hc⟩⟩

/-! ### Edges -/

/-- The targets of a recorded graph are those of the out-edges of classes. -/
theorem targetAt_finish_iff :
    r.finish.targetAt e = .ok t ↔ ∃ c edge, r.classOrder[e.node]? = some c ∧
      (r.outEdges r.classOrder c)[e.edge]? = some (t, edge) := by
  have htargets : r.finish.targets[e.node]? =
      r.classOrder[e.node]?.map fun c => (r.outEdges r.classOrder c).map Prod.fst := by
    simp [finish, Function.comp_def]
  rw [Graph.targetAt, Outcome.bind_eq_ok_iff]
  simp only [arrayAt_eq_ok_iff, listAt_eq_ok_iff, htargets]
  cases r.classOrder[e.node]? with
  | none => simp
  | some c => simp [List.getElem?_map, Option.map_eq_some_iff]

/-- The evidence in a recorded graph is that of the out-edges of classes. -/
theorem edgeAt_finish_iff :
    r.finish.edgeAt e = .ok edge ↔ ∃ c t, r.classOrder[e.node]? = some c ∧
      (r.outEdges r.classOrder c)[e.edge]? = some (t, edge) := by
  have hedges : r.finish.edges[e.node]? =
      r.classOrder[e.node]?.map fun c => (r.outEdges r.classOrder c).map Prod.snd := by
    simp [finish, Function.comp_def]
  rw [Graph.edgeAt, Outcome.bind_eq_ok_iff]
  simp only [arrayAt_eq_ok_iff, listAt_eq_ok_iff, hedges]
  cases r.classOrder[e.node]? with
  | none => simp
  | some c => simp [List.getElem?_map, Option.map_eq_some_iff]

theorem mem_outEdges (h : Tracks r.classes log) {order : List Nat} :
    (t, edge) ∈ r.outEdges order c ↔ ∃ k, r.classes[c]? = some k ∧
      ∃ d evidence, k.out.get? d = some evidence ∧ order.idxOf d = t ∧ evidence.toEdge = edge := by
  unfold outEdges
  cases hk : r.classes[c]? with
  | none => simp
  | some k =>
    simp only [List.mem_mergeSort, List.mem_map, Prod.exists, Prod.mk.injEq,
      Dictionary.mem_entries_iff (h.distinct c k hk), Option.some.injEq, exists_eq_left']

/-- The out-edges of a class have different targets. -/
theorem nodup_outEdges (h : Tracks r.classes log) (c : Nat) :
    ((r.outEdges r.classOrder c).map Prod.fst).Nodup := by
  unfold outEdges
  cases hk : r.classes[c]? with
  | none => exact List.nodup_nil
  | some k =>
    rw [((List.mergeSort_perm _ _).map Prod.fst).nodup_iff, List.map_map]
    have hkeys : (k.out.entries.map Prod.fst).Nodup := h.distinct c k hk
    change (k.out.entries.map fun entry => r.classOrder.idxOf entry.1).Nodup
    rw [← Function.comp_def (fun d => r.classOrder.idxOf d) Prod.fst, ← List.map_map]
    refine hkeys.map_on ?_
    -- different classes have different places in the order
    intro d hd d' hd' heq
    have hlt : ∀ x ∈ k.out.entries.map Prod.fst, x < r.classes.size := by
      intro x hx
      obtain ⟨⟨_, evidence⟩, hmem, rfl⟩ := List.mem_map.mp hx
      exact h.inside c k hk _ evidence ((Dictionary.mem_entries_iff (h.distinct c k hk)).mp hmem)
    have hplace := getElem?_idxOf_classOrder (hlt d hd)
    rw [heq, getElem?_idxOf_classOrder (hlt d' hd')] at hplace
    exact (Option.some.inj hplace).symm

/-- The edges between two labels are the evidence between their classes. -/
theorem joins_finish_iff (h : Tracks r.classes log) :
    r.finish.Joins e A B ↔ ∃ c k d evidence, r.classOrder[e.node]? = some c ∧
      r.classes[c]? = some k ∧ k.label = A ∧ classLabel? r.classes d = some B ∧
      k.out.get? d = some evidence ∧
      (r.outEdges r.classOrder c)[e.edge]? = some (r.classOrder.idxOf d, evidence.toEdge) := by
  constructor
  · rintro ⟨hsource, t, htarget, ht⟩
    obtain ⟨c, hc, hcA⟩ := labels_finish_eq_some_iff.mp hsource
    obtain ⟨d, hd, hdB⟩ := labels_finish_eq_some_iff.mp ht
    obtain ⟨c', edge, hc', hout⟩ := targetAt_finish_iff.mp htarget
    obtain rfl : c = c' := Option.some.inj (hc.symm.trans hc')
    obtain ⟨k, hk, d', evidence, hd', rfl, rfl⟩ :=
      (mem_outEdges h).mp (List.mem_of_getElem? hout)
    have hplace := getElem?_idxOf_classOrder (h.inside c k hk d' evidence hd')
    obtain rfl : d' = d := Option.some.inj (hplace.symm.trans hd)
    have hkA : k.label = A := by simpa [classLabel?, hk] using hcA
    exact ⟨c, k, d', evidence, hc, hk, hkA, hdB, hd', hout⟩
  · rintro ⟨c, k, d, evidence, hc, hk, hkA, hdB, hd, hout⟩
    have hplace := getElem?_idxOf_classOrder (lt_of_classLabel?_eq_some hdB)
    refine ⟨labels_finish_eq_some_iff.mpr ⟨c, hc, by simp [classLabel?, hk, hkA]⟩, ?_⟩
    exact ⟨_, targetAt_finish_iff.mpr ⟨c, _, hc, hout⟩,
      labels_finish_eq_some_iff.mpr ⟨d, hplace, hdB⟩⟩

/-- Every edge joins two labels. -/
theorem exists_joins_of_edgeAt (h : Tracks r.classes log) (hedge : r.finish.edgeAt e = .ok edge) :
    ∃ A B, r.finish.Joins e A B := by
  obtain ⟨c, t, hc, hout⟩ := edgeAt_finish_iff.mp hedge
  obtain ⟨k, hk, d, evidence, hd, rfl, rfl⟩ := (mem_outEdges h).mp (List.mem_of_getElem? hout)
  have hdB := classLabel?_eq_labelOf (h.inside c k hk d evidence hd)
  exact ⟨_, _, (joins_finish_iff h).mpr ⟨c, k, d, evidence, hc, hk, rfl, hdB, hd, hout⟩⟩

/-- No two edges join the same labels. -/
theorem joins_unique {e' : EdgeId} (h : Tracks r.classes log) (he : r.finish.Joins e A B)
    (he' : r.finish.Joins e' A B) : e = e' := by
  have hnode := node_unique h he.source_eq he'.source_eq
  obtain ⟨t, ht, htB⟩ := he.target_eq
  obtain ⟨t', ht', htB'⟩ := he'.target_eq
  obtain rfl := node_unique h htB htB'
  obtain ⟨c, edge, hc, hout⟩ := targetAt_finish_iff.mp ht
  obtain ⟨c', edge', hc', hout'⟩ := targetAt_finish_iff.mp ht'
  rw [hnode, hc'] at hc
  obtain rfl := Option.some.inj hc
  -- both edges have the same source and the same target
  have hfst : ∀ {i : Nat} {x : Nat × Edge}, (r.outEdges r.classOrder c')[i]? = some x →
      ((r.outEdges r.classOrder c').map Prod.fst)[i]? = some x.1 := by
    intro i x hx
    rw [List.getElem?_map, hx, Option.map_some]
  obtain ⟨hi, hi'⟩ := List.getElem?_eq_some_iff.mp (hfst hout)
  obtain ⟨hj, hj'⟩ := List.getElem?_eq_some_iff.mp (hfst hout')
  have hedge := (nodup_outEdges h c').getElem_inj_iff.mp (hi'.trans hj'.symm)
  obtain ⟨node, position⟩ := e
  obtain ⟨node', position'⟩ := e'
  exact EdgeId.mk.injEq .. ▸ ⟨hnode, hedge⟩

/-- There is an edge between two labels when the log has an entry between them. -/
theorem exists_joins_iff_logged (h : Tracks r.classes log) :
    (∃ e, r.finish.Joins e A B) ↔ ∃ s ∈ log, s.source = A ∧ s.target = B := by
  constructor
  · rintro ⟨e, he⟩
    obtain ⟨c, k, d, evidence, _, hk, rfl, hdB, hd, _⟩ := (joins_finish_iff h).mp he
    by_contra hnone
    push Not at hnone
    have hnil : between log k.label B = [] :=
      between_eq_nil_iff.mpr fun s hs heq => hnone s hs heq.1 heq.2
    rw [h.evidence c k d B hk hdB, hnil] at hd
    simp [evidence?] at hd
  · rintro ⟨s, hs, rfl, rfl⟩
    obtain ⟨⟨c, hc⟩, d, hd⟩ := h.logged s hs
    obtain ⟨k, hk, hkA⟩ := classLabel?_eq_some_iff.mp hc
    have hsome : between log k.label s.target ≠ [] := fun hnil =>
      between_eq_nil_iff.mp hnil s hs ⟨hkA.symm, rfl⟩
    have hevidence := h.evidence c k d s.target hk hd
    rw [evidence?, if_neg hsome] at hevidence
    obtain ⟨j, hj⟩ := List.mem_iff_getElem?.mp
      ((mem_outEdges h).mpr ⟨k, hk, d, _, hevidence, rfl, rfl⟩ :
        _ ∈ r.outEdges r.classOrder c)
    have horder := getElem?_idxOf_classOrder (lt_of_classLabel?_eq_some hc)
    exact ⟨⟨_, j⟩, (joins_finish_iff h).mpr ⟨c, k, d, _, horder, hk, hkA, hd, hevidence, hj⟩⟩

/-- The evidence of an edge is that of the log entries between its labels. -/
theorem edgeAt_of_joins (h : Tracks r.classes log) (he : r.finish.Joins e A B) :
    r.finish.edgeAt e = .ok (Evidence.ofSightings (between log A B)).toEdge := by
  obtain ⟨c, k, d, evidence, hc, hk, rfl, hdB, hd, hout⟩ := (joins_finish_iff h).mp he
  have hevidence := h.evidence c k d B hk hdB
  rw [hd, evidence?] at hevidence
  split at hevidence
  · simp at hevidence
  · rw [← Option.some.inj hevidence]
    exact edgeAt_finish_iff.mpr ⟨c, _, hc, hout⟩

theorem count_between (log : List Sighting) (A B : String) (first second : Stack) :
    (between log A B).count (first, second) = log.count ⟨A, B, first, second⟩ := by
  induction log using List.reverseRecOn with
  | nil => rfl
  | append_singleton log s ih =>
    obtain ⟨source, target, s₁, s₂⟩ := s
    rw [between_concat, List.count_append, List.count_append, ih, List.count_singleton]
    congr 1
    by_cases hlabels : source = A ∧ target = B
    · simp [hlabels, List.count_singleton]
    · rw [if_neg hlabels]
      have hne : (⟨source, target, s₁, s₂⟩ : Sighting) ≠ ⟨A, B, first, second⟩ := by
        intro heq
        obtain ⟨rfl, rfl, _, _⟩ := Sighting.mk.inj heq
        exact hlabels ⟨rfl, rfl⟩
      simp [hne]

/-- A recorded graph holds what the log of its run says. It has one node for each label that a lock
was taken under, and an edge between two labels exactly when the log has an entry between them;
there is only one such edge, and no other edges. The pairs of stacks of that edge are those of the
entries between its labels, each once and with the number of its entries. -/
theorem finish_records_log (table : StackTable) (calls : List Call) :
    let l := Ledger.replay calls
    let g := ((empty table).run calls).finish
    g.labels.toList.Nodup ∧
      (∀ label, label ∈ g.labels ↔ label ∈ l.taken) ∧
      (∀ A B, (∃ e, g.Joins e A B) ↔ ∃ s ∈ l.log, s.source = A ∧ s.target = B) ∧
      (∀ A B e e', g.Joins e A B → g.Joins e' A B → e = e') ∧
      (∀ e edge, g.edgeAt e = .ok edge → ∃ A B, g.Joins e A B) ∧
      ∀ A B e, g.Joins e A B → ∃ edge, g.edgeAt e = .ok edge ∧ edge.pairs.Nodup ∧
        ∀ pair, pair ∈ edge.pairs ↔
          0 < pair.count ∧ pair.count = l.log.count ⟨A, B, pair.first, pair.second⟩ := by
  intro l g
  have hmirrors := mirrors_run table calls
  have htracks := hmirrors.tracks
  refine ⟨?_, ?_, ?_, ?_, ?_, ?_⟩
  · exact nodup_labels_finish htracks
  · intro label
    rw [mem_labels_finish_iff, hmirrors.taken_iff]
  · exact fun A B => exists_joins_iff_logged htracks
  · exact fun A B e e' he he' => joins_unique htracks he he'
  · exact fun e edge hedge => exists_joins_of_edgeAt htracks hedge
  · intro A B e he
    refine ⟨_, edgeAt_of_joins htracks he, Evidence.nodup_toEdge _, fun pair => ?_⟩
    rw [Evidence.mem_toEdge_iff, count_between]

end Recorder

end LockOrder
