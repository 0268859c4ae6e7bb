import LockOrder.Proofs.Graph.Sound
import LockOrder.Proofs.Report.FirstSeen
import LockOrder.Proofs.Report.Script

/-!
# Drawings of the calls behind an edge

Every stack is drawn with at least one frame, and every frame that is drawn has a node of the call
graph. So an acquisition has two ends and a call leads from node to node, and the drawing of sound
evidence has no fault. The weight of an acquisition is never above the number of times that the edge
was seen.

## Main definitions

* `CallGraph.Places` — every frame that is drawn has its node

## Main results

* `CallGraph.nodeOf_lt` — frames that are drawn have nodes
* `CallGraph.weight_le` — acquisitions weigh no more than the edge
* `Report.exists_trimmed` — sound evidence can be trimmed, and no trimmed stack is empty
* `Report.exists_edgeDot` — sound evidence can be drawn
-/

namespace LockOrder

/-! ### Call graphs -/

namespace CallGraph

variable {grain : Grain} {pairs : List StackPair} {p : StackPair} {pos : Pos}

/-- The frames that are drawn, in the order in which their nodes are made. -/
def drawn (pairs : List StackPair) : List Pos :=
  (pairs.flatMap fun p => [p.first, p.second]).flatMap Stack.frames

theorem mem_drawn :
    pos ∈ drawn pairs ↔ ∃ p ∈ pairs, pos ∈ p.first.frames ∨ pos ∈ p.second.frames := by
  simp only [drawn, List.mem_flatMap, List.mem_cons, List.not_mem_nil, or_false]
  constructor
  · rintro ⟨s, ⟨p, hp, rfl | rfl⟩, hpos⟩
    · exact ⟨p, hp, .inl hpos⟩
    · exact ⟨p, hp, .inr hpos⟩
  · rintro ⟨p, hp, hpos | hpos⟩
    · exact ⟨p.first, ⟨p, hp, .inl rfl⟩, hpos⟩
    · exact ⟨p.second, ⟨p, hp, .inr rfl⟩, hpos⟩

/-- Every frame that is drawn has a node. -/
theorem nodeOf_lt (grain : Grain) (hpos : pos ∈ drawn pairs) :
    nodeOf grain (ofPairs grain pairs).nodes pos < (ofPairs grain pairs).nodes.length := by
  have hfirst := isFirstSeen_firstSeen grain.key (drawn pairs)
  obtain ⟨node, hnode, hkey⟩ := List.mem_map.mp ((hfirst.covers _).mpr (List.mem_map_of_mem hpos))
  exact List.findIdx_lt_length_of_exists ⟨node, hnode, by simpa using hkey⟩

theorem total_filter_le {α : Type} (weight : α → Nat) (keep : α → Bool) (xs : List α) :
    total ((xs.filter keep).map weight) ≤ total (xs.map weight) := by
  induction xs with
  | nil => exact Nat.le_refl 0
  | cons x xs ih =>
    by_cases hx : keep x = true
    · simpa [hx] using ih
    · simpa [hx] using Nat.le_add_left_of_le ih

theorem total_filterMap_le {α β : Type} {weight : α → Nat} {weight' : β → Nat} {f : α → Option β}
    (hf : ∀ x y, f x = some y → weight' y = weight x) (xs : List α) :
    total ((xs.filterMap f).map weight') ≤ total (xs.map weight) := by
  induction xs with
  | nil => exact Nat.le_refl 0
  | cons x xs ih =>
    cases hx : f x with
    | none => simpa [hx] using Nat.le_add_left_of_le ih
    | some y => simpa [hx, hf x y hx] using ih

/-- An acquisition is no more frequent than all pairs of stacks together. -/
theorem weight_le {entry : (Nat × Nat) × Nat} (h : entry ∈ (ofPairs grain pairs).acquisitions) :
    entry.2 ≤ total (pairs.map StackPair.count) := by
  simp only [ofPairs, totals, List.mem_map] at h
  obtain ⟨⟨key, n⟩, _, rfl⟩ := h
  refine Nat.le_trans (total_filter_le Prod.snd _ _) (total_filterMap_le ?_ pairs)
  intro p y hy
  obtain ⟨ends, _, rfl⟩ := Option.map_eq_some_iff.mp hy
  rfl

/-- Every stack has an innermost frame, and every frame a node. -/
structure Places (grain : Grain) (pairs : List StackPair) : Prop where
  /-- The stacks have innermost frames. -/
  innermost : ∀ p ∈ pairs, ∃ ends, innermostOf p = some ends
  /-- The frames have nodes. -/
  node : ∀ p ∈ pairs, ∀ pos ∈ p.first.frames ++ p.second.frames,
    nodeOf grain (ofPairs grain pairs).nodes pos < (ofPairs grain pairs).nodes.length

/-- Stacks that are not empty have all their places. -/
theorem places (grain : Grain) (h : ∀ p ∈ pairs, p.first.frames ≠ [] ∧ p.second.frames ≠ []) :
    Places grain pairs where
  innermost p hp := by
    obtain ⟨first, _, hfirst⟩ := List.exists_cons_of_ne_nil (h p hp).1
    obtain ⟨second, _, hsecond⟩ := List.exists_cons_of_ne_nil (h p hp).2
    exact ⟨(first, second), by simp [innermostOf, Stack.innermost?, hfirst, hsecond]⟩
  node p hp pos hpos := nodeOf_lt grain (mem_drawn.mpr ⟨p, hp, List.mem_append.mp hpos⟩)

end CallGraph

/-! ### Drawing evidence -/

theorem Grain.exists_label {table : StackTable} {pos : Pos} (grain : Grain) (h : table.Holds pos) :
    ∃ text, grain.label table pos = .ok text := by
  cases pos with
  | unresolved text => exact ⟨text, by cases grain <;> rfl⟩
  | resolved file func row =>
    obtain ⟨fileName, hfile⟩ := StringTable.exists_get h.1
    obtain ⟨funcName, hfunc⟩ := StringTable.exists_get h.2
    cases grain with
    | function => exact ⟨funcName, hfunc⟩
    | line => exact ⟨_, by rw [Grain.label, hfunc, hfile]; rfl⟩

theorem StackTable.exists_funcName? {table : StackTable} {pos : Pos} (h : table.Holds pos) :
    ∃ name, table.funcName? pos = .ok name := by
  cases pos with
  | unresolved text => exact ⟨none, rfl⟩
  | resolved file func row =>
    obtain ⟨funcName, hfunc⟩ := StringTable.exists_get h.2
    exact ⟨some funcName, by rw [StackTable.funcName?, hfunc]; rfl⟩

namespace Report

variable {table : StackTable} {grain : Grain}

/-- Frames that stand in for none are in every table. -/
theorem holds_orMissing (settings : Settings) (frames : List Pos)
    (h : ∀ pos ∈ frames, table.Holds pos) :
    (if frames.isEmpty then [Pos.unresolved settings.missingStack] else frames) ≠ [] ∧
      ∀ pos ∈ if frames.isEmpty then [Pos.unresolved settings.missingStack] else frames,
        table.Holds pos := by
  cases frames with
  | nil => simp [StackTable.Holds]
  | cons pos frames => exact ⟨List.cons_ne_nil _ _, h⟩

/-- A stack whose frames are in the table can be trimmed, and has frames afterwards. -/
theorem exists_trimStack (settings : Settings) {s : Stack} (h : ∀ pos ∈ s.frames, table.Holds pos) :
    ∃ s', trimStack settings table s = .ok s' ∧ s'.frames ≠ [] ∧
      ∀ pos ∈ s'.frames, table.Holds pos := by
  rw [trimStack]
  cases hlast : s.frames.getLast? with
  | none => exact ⟨_, rfl, holds_orMissing settings [] (by simp)⟩
  | some outer =>
    obtain ⟨name, hname⟩ := StackTable.exists_funcName? (h outer (List.mem_of_getLast? hlast))
    simp only [hname, bind, Except.bind]
    by_cases hexit : name = some settings.exitFunction
    · simp only [hexit, if_true]
      exact ⟨_, rfl, holds_orMissing settings s.frames.dropLast fun pos hpos =>
        h pos (List.dropLast_subset _ hpos)⟩
    · simp only [hexit, if_false]
      exact ⟨_, rfl, holds_orMissing settings s.frames h⟩

/-- A sound pair of stacks can be trimmed. -/
theorem exists_trimPair (settings : Settings) {p : StackPair} (h : p.Sound table) :
    ∃ p', trimPair settings table p = .ok p' ∧ p'.count = p.count ∧
      (p'.first.frames ≠ [] ∧ p'.second.frames ≠ []) ∧ p'.Sound table := by
  obtain ⟨first, hfirst, hne, hholds⟩ := exists_trimStack settings h.first
  obtain ⟨second, hsecond, hne', hholds'⟩ := exists_trimStack settings h.second
  refine ⟨⟨first, second, p.count⟩, ?_, rfl, ⟨hne, hne'⟩, h.count_pos, hholds, hholds'⟩
  rw [trimPair, hfirst, hsecond]
  rfl

/-- Sound evidence can be trimmed: no stack is empty afterwards, and the counts stay. -/
theorem exists_trimmed (settings : Settings) {evidence : List StackPair}
    (h : ∀ p ∈ evidence, p.Sound table) :
    ∃ pairs, evidence.mapM (trimPair settings table) = .ok pairs ∧
      pairs.map StackPair.count = evidence.map StackPair.count ∧
      ∀ p ∈ pairs, (p.first.frames ≠ [] ∧ p.second.frames ≠ []) ∧ p.Sound table := by
  induction evidence with
  | nil => exact ⟨[], rfl, rfl, fun _ hp => nomatch hp⟩
  | cons p evidence ih =>
    obtain ⟨p', hp', hcount, hfacts⟩ := exists_trimPair settings (h p List.mem_cons_self)
    obtain ⟨pairs, hpairs, hcounts, hall⟩ := ih fun q hq => h q (List.mem_cons_of_mem p hq)
    refine ⟨p' :: pairs, ?_, by simp [hcount, hcounts], List.forall_mem_cons.mpr ⟨hfacts, hall⟩⟩
    rw [List.mapM_cons, hp', hpairs]
    rfl

/-- A call graph whose frames are in the table can be drawn. -/
theorem exists_text_callGraphDot (settings : Settings) (grain : Grain) {g : CallGraph}
    (h : ∀ pos ∈ g.nodes, table.Holds pos) :
    ∃ t, (callGraphDot settings table grain g).text = .ok t := by
  refine Script.exists_text fun step hstep => ?_
  simp only [callGraphDot, List.mem_append, List.mem_cons, List.mem_map, List.not_mem_nil,
    or_false] at hstep
  rcases hstep with ((((rfl | rfl) | ⟨⟨pos, node⟩, hnode, rfl⟩) | ⟨_, _, rfl⟩) | ⟨_, _, rfl⟩) | rfl
  · exact fun _ => Step.noConfusion
  · exact fun _ => Step.noConfusion
  · have hmem := List.mem_of_getElem? (List.mem_zipIdx_iff_getElem?.mp hnode)
    obtain ⟨label, hlabel⟩ := grain.exists_label (h pos hmem)
    exact Script.ofLine_ne_fault ⟨_, by rw [frameLine, hlabel]; rfl⟩
  · exact fun _ => Step.noConfusion
  · exact fun _ => Step.noConfusion
  · exact fun _ => Step.noConfusion

/-- The nodes of a call graph of sound evidence are in the table. -/
theorem holds_of_mem_nodes (grain : Grain) {pairs : List StackPair}
    (h : ∀ p ∈ pairs, p.Sound table) :
    ∀ pos ∈ (CallGraph.ofPairs grain pairs).nodes, table.Holds pos := by
  intro pos hpos
  obtain ⟨p, hp, hpos⟩ := CallGraph.mem_drawn.mp ((isFirstSeen_firstSeen _ _).mem hpos)
  exact hpos.elim ((h p hp).first pos) ((h p hp).second pos)

/-- Sound evidence can be drawn, with a place for all that is drawn. -/
theorem exists_edgeDot (settings : Settings) (grain : Grain) {edge : Edge}
    (h : ∀ p ∈ edge.pairs, p.Sound table) :
    ∃ pairs t, edge.pairs.mapM (trimPair settings table) = .ok pairs ∧
      CallGraph.Places grain pairs ∧
      (∀ entry ∈ (CallGraph.ofPairs grain pairs).acquisitions, entry.2 ≤ edge.totalCount) ∧
      (edgeDot settings table grain edge).text = .ok t := by
  obtain ⟨pairs, hpairs, hcounts, hall⟩ := exists_trimmed settings h
  obtain ⟨t, ht⟩ := exists_text_callGraphDot settings grain
    (holds_of_mem_nodes grain fun p hp => (hall p hp).2)
  refine ⟨pairs, t, hpairs, CallGraph.places grain fun p hp => (hall p hp).1,
    fun entry hentry => ?_, ?_⟩
  · rw [Edge.totalCount, ← hcounts]
    exact CallGraph.weight_le hentry
  · rw [edgeDot, hpairs]
    exact ht

end Report

end LockOrder
