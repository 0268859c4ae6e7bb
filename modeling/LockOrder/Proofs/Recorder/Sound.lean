import LockOrder.Proofs.Recorder.Canonical
import LockOrder.Proofs.Stack.Growth
import LockOrder.Proofs.Text.Order

/-!
# Recorded graphs are sound and canonical

Every stack in the log of a run was given with some call of the run, and the table of a recorder
only grows. So if every frame of every such stack was interned by the end of the run, a recorded
graph is sound. It is also in a canonical form, which the classes in memory do not have: evidence
may be listed in any order there, and is listed by target in the graph.

## Main definitions

* `Call.stack?` — the stack that a call gives
* `Recorder.Shuffled` — recorders that list the evidence of a class in another order

## Main results

* `Ledger.exists_stack?_of_log` — the stacks of the log were given with calls
* `Recorder.sound_finish` — a recorded graph is sound
* `Recorder.finish_eq_of_shuffled` — the order in which evidence is listed does not matter
* `Recorder.finish_sound_and_canonical` — the form of a recorded graph
-/

namespace LockOrder

/-! ### The stacks of a run -/

/-- The stack that a call gives. -/
def Call.stack? : Call → Option Stack
  | .acquire _ _ stack | .acquireLabeled _ _ stack _ _ | .mayAcquire _ _ stack => some stack
  | .name _ _ | .release _ _ | .intern _ => none

namespace Ledger

variable {l : Ledger} {calls : List Call} {call : Call} {thread : Nat} {h : Holding}

theorem mem_of_mem_dropFirst {lock : Nat} {held : List Holding} (hh : h ∈ dropFirst lock held) :
    h ∈ held := by
  unfold dropFirst at hh
  cases hfind : held.findIdx? fun h => h.lock = lock with
  | none => simpa [hfind] using hh
  | some i =>
    rw [hfind] at hh
    exact Recorder.mem_of_mem_swapRemove hh

/-- A lock that is held after a call was held before, or has the stack of the call. -/
theorem held_or_stack?_of_heldAfter (hh : h ∈ l.heldAfter call thread) :
    h ∈ l.held thread ∨ call.stack? = some h.stack := by
  -- only the locks of the calling thread may have changed
  have hupdate : ∀ {t : Nat} {held : List Holding},
      h ∈ Function.update l.held t held thread → h ∈ held ∧ t = thread ∨ h ∈ l.held thread := by
    intro t held hmem
    by_cases ht : thread = t
    · subst ht
      rw [Function.update_self] at hmem
      exact .inl ⟨hmem, rfl⟩
    · rw [Function.update_of_ne ht] at hmem
      exact .inr hmem
  cases call with
  | name lock label => exact .inl hh
  | intern frames => exact .inl hh
  | mayAcquire t lock stack => exact .inl hh
  | acquire t lock stack =>
    rcases hupdate hh with ⟨hmem, rfl⟩ | hmem
    · refine (List.mem_append.mp hmem).imp_right fun hnew => ?_
      rw [List.mem_singleton.mp hnew, Call.stack?]
    · exact .inl hmem
  | acquireLabeled t lock stack label rank =>
    rcases hupdate hh with ⟨hmem, rfl⟩ | hmem
    · refine (List.mem_append.mp hmem).imp_right fun hnew => ?_
      rw [List.mem_singleton.mp hnew, Call.stack?]
    · exact .inl hmem
  | release t lock =>
    rcases hupdate hh with ⟨hmem, rfl⟩ | hmem
    · exact .inl (mem_of_mem_dropFirst hmem)
    · exact .inl hmem

/-- Every lock that is held was taken with the stack of some call. -/
theorem exists_stack?_of_held (hh : h ∈ (replay calls).held thread) :
    ∃ call ∈ calls, call.stack? = some h.stack := by
  induction calls using List.reverseRecOn with
  | nil => cases hh
  | append_singleton calls call ih =>
    rw [replay_concat] at hh
    rcases held_or_stack?_of_heldAfter hh with hold | hnew
    · obtain ⟨c, hc, hstack⟩ := ih hold
      exact ⟨c, List.mem_append_left _ hc, hstack⟩
    · exact ⟨call, List.mem_append_right _ (List.mem_singleton_self call), hnew⟩

theorem stack?_of_acquisition? {new : Holding} (h : l.acquisition? call = some (thread, new)) :
    call.stack? = some new.stack := by
  cases call with
  | acquire t lock stack => cases h; rfl
  | acquireLabeled t lock stack label rank => cases h; rfl
  | mayAcquire t lock stack =>
    simp only [acquisition?] at h
    split at h
    · cases h
    · cases h; rfl
  | _ => cases h

/-- Both stacks of an entry of the log were given with calls. -/
theorem exists_stack?_of_log {s : Sighting} (hs : s ∈ (replay calls).log) :
    (∃ call ∈ calls, call.stack? = some s.first) ∧ ∃ call ∈ calls, call.stack? = some s.second := by
  obtain ⟨before, call, after, rfl, hmem⟩ := mem_log_iff.mp hs
  obtain ⟨thread, new, hnew, held, hheld, hsighting⟩ := mem_sightings_iff.mp hmem
  unfold sighting? at hsighting
  split at hsighting
  · cases hsighting
  · obtain rfl := Option.some.inj hsighting
    obtain ⟨c, hc, hstack⟩ := exists_stack?_of_held hheld
    exact ⟨⟨c, List.mem_append_left _ hc, hstack⟩,
      ⟨call, List.mem_append_right _ List.mem_cons_self, stack?_of_acquisition? hnew⟩⟩

end Ledger

namespace Recorder

variable {r r' : Recorder} {log : List Sighting} {A B : String}

/-! ### Soundness -/

theorem exists_sighting_of_between {key : Stack × Stack} (h : key ∈ between log A B) :
    ∃ s ∈ log, (s.first, s.second) = key := by
  obtain ⟨s, hs, heq⟩ := List.mem_filterMap.mp h
  split at heq
  · exact ⟨s, hs, Option.some.inj heq⟩
  · cases heq

/-- The graph of a recorder is sound if the frames of its log are in its table. -/
theorem sound_finish (h : Tracks r.classes log)
    (hfirst : ∀ s ∈ log, ∀ pos ∈ s.first.frames, r.table.Holds pos)
    (hsecond : ∀ s ∈ log, ∀ pos ∈ s.second.frames, r.table.Holds pos) : r.finish.Sound where
  edges_size := by simp [finish, Graph.nodeCount]
  targets_size := by simp [finish, Graph.nodeCount]
  degree node edges targets hedges htargets := by
    have hdegree := r.degree_finish node
    rw [hedges, htargets] at hdegree
    exact Option.some.inj hdegree
  inside node targets htargets t ht := by
    obtain ⟨i, hi⟩ := List.mem_iff_getElem?.mp ht
    have htarget : r.finish.targetAt ⟨node, i⟩ = .ok t := by
      rw [Graph.targetAt, arrayAt_eq_ok_iff.mpr htargets]
      exact listAt_eq_ok_iff.mpr hi
    have hnode : node < r.finish.digraph.order := by
      have hlt := (Array.getElem?_eq_some_iff.mp htargets).1
      simpa [finish, Graph.digraph, Graph.nodeCount] using hlt
    exact (finish_closed h).inside node hnode t (Graph.step_digraph_iff.mpr ⟨i, htarget⟩)
  evidence node edges hedges edge hedge p hp := by
    obtain ⟨i, hi⟩ := List.mem_iff_getElem?.mp hedge
    have hedgeAt : r.finish.edgeAt ⟨node, i⟩ = .ok edge :=
      Graph.edgeAt_eq_ok_iff.mpr ⟨edges, hedges, hi⟩
    -- the pairs of an edge are those that the log has between its labels
    obtain ⟨A, B, hjoins⟩ := exists_joins_of_edgeAt h hedgeAt
    obtain rfl := Except.ok.inj ((edgeAt_of_joins h hjoins).symm.trans hedgeAt)
    obtain ⟨hpos, hcount⟩ := Evidence.mem_toEdge_iff.mp hp
    obtain ⟨s, hs, heq⟩ := exists_sighting_of_between (List.count_pos_iff.mp (hcount ▸ hpos))
    obtain ⟨hs₁, hs₂⟩ := Prod.mk.inj heq
    exact ⟨hpos, hs₁ ▸ hfirst s hs, hs₂ ▸ hsecond s hs⟩

/-! ### The order of the evidence -/

/-- Recorders with the same classes, of which one may list the evidence of a class in another order
than the other. -/
structure Shuffled (r r' : Recorder) : Prop where
  /-- The tables are the same. -/
  table_eq : r'.table = r.table
  /-- There are as many classes. -/
  size_eq : r'.classes.size = r.classes.size
  /-- The labels of classes are the same. -/
  label_eq : ∀ (c : Nat) k k', r.classes[c]? = some k → r'.classes[c]? = some k' →
    k'.label = k.label
  /-- The evidence of a class is the same, in any order. -/
  entries_perm : ∀ (c : Nat) k k', r.classes[c]? = some k → r'.classes[c]? = some k' →
    k'.out.entries.Perm k.out.entries

theorem Shuffled.labelOf_eq (hs : r.Shuffled r') : r'.labelOf = r.labelOf := by
  funext c
  unfold labelOf
  by_cases hc : c < r.classes.size
  · have hc' : c < r'.classes.size := hs.size_eq ▸ hc
    have hlabel := hs.label_eq c _ _ (Array.getElem?_eq_getElem hc) (Array.getElem?_eq_getElem hc')
    simp [hc, hc', hlabel]
  · have hc' : ¬ c < r'.classes.size := hs.size_eq ▸ hc
    simp [hc, hc']

theorem Shuffled.outEdges_perm (hs : r.Shuffled r') (order : List Nat) (c : Nat) :
    (r'.outEdges order c).Perm (r.outEdges order c) := by
  unfold outEdges
  by_cases hc : c < r.classes.size
  · have hk := Array.getElem?_eq_getElem hc
    have hk' := Array.getElem?_eq_getElem (hs.size_eq ▸ hc : c < r'.classes.size)
    rw [hk, hk']
    refine (List.mergeSort_perm _ _).trans (.trans ?_ (List.mergeSort_perm _ _).symm)
    exact (hs.entries_perm c _ _ hk hk').map _
  · have hc' : ¬ c < r'.classes.size := hs.size_eq ▸ hc
    simp [hc, hc']

/-- As the targets of a class differ, sorting by target undoes any order of the evidence. -/
theorem Shuffled.outEdges_eq (hs : r.Shuffled r') (h : Tracks r.classes log) :
    r'.outEdges r.classOrder = r.outEdges r.classOrder := by
  funext c
  have hperm := hs.outEdges_perm r.classOrder c
  refine hperm.eq_of_pairwise (fun a b ha hb hab hba => ?_) (r'.pairwise_outEdges _ c)
    (r.pairwise_outEdges _ c)
  apply List.inj_on_of_nodup_map (nodup_outEdges h c) (hperm.mem_iff.mp ha) hb
  exact Nat.le_antisymm hab hba

/-- The order in which the evidence of classes is listed does not show in the recorded graph. -/
theorem finish_eq_of_shuffled (hs : r.Shuffled r') (h : Tracks r.classes log) :
    r'.finish = r.finish := by
  have horder : r'.classOrder = r.classOrder := by
    rw [classOrder, classOrder, hs.labelOf_eq, hs.size_eq]
  simp only [finish, horder, hs.labelOf_eq, hs.outEdges_eq h, hs.table_eq]

/-! ### The form of a recorded graph -/

/-- Every edge of a recorded graph has evidence: each pair of stacks that the log has between its
labels, once, by falling count, and pairs with equal counts in the order of the log. -/
theorem exists_joins_pairwise (h : Tracks r.classes log) {e : EdgeId} {edge : Edge}
    (hedge : r.finish.edgeAt e = .ok edge) :
    edge.pairs ≠ [] ∧ (edge.pairs.map StackPair.key).Nodup ∧ ∃ A B, r.finish.Joins e A B ∧
      edge.pairs.Pairwise fun p q => q.count < p.count ∨ q.count = p.count ∧
        (between log A B).idxOf p.key < (between log A B).idxOf q.key := by
  obtain ⟨A, B, hjoins⟩ := exists_joins_of_edgeAt h hedge
  obtain rfl := Except.ok.inj ((edgeAt_of_joins h hjoins).symm.trans hedge)
  have hkeys := Evidence.keys_toEdge_perm (between log A B)
  refine ⟨?_, ?_, A, B, hjoins, Evidence.pairwise_toEdge _⟩
  · -- the log has an entry between the labels, and its pair of stacks is one of the edge
    obtain ⟨s, hs, hsource, htarget⟩ := (exists_joins_iff_logged h).mp ⟨e, hjoins⟩
    have hkey : (s.first, s.second) ∈ between log A B :=
      List.mem_filterMap.mpr ⟨s, hs, if_pos ⟨hsource, htarget⟩⟩
    intro hnil
    rw [hnil, List.map_nil] at hkeys
    exact List.not_mem_nil (hkeys.mem_iff.mpr (List.mem_eraseDups.mpr hkey))
  · exact hkeys.nodup_iff.mpr (nodup_eraseDups _)

/-- **Every recorded graph is sound and canonical**, whatever the run, as long as the frames of the
stacks that come with its calls are unresolved or were interned before or during the run. The check
accepts the graph. Its labels ascend octet by octet and the targets of each node ascend, so no label
and no edge comes twice, and the order in which the evidence of a class is listed does not show.
Every edge has a pair of stacks; its pairs differ, and they stand by falling count, those with equal
counts in the order in which the log first has them between the two labels. -/
theorem finish_sound_and_canonical (table : StackTable) (calls : List Call)
    (hframes : ∀ call ∈ calls, ∀ stack ∈ call.stack?, ∀ pos ∈ stack.frames,
      ∃ before, before <+: calls ∧ ((empty table).run before).table.Holds pos) :
    let r := (empty table).run calls
    let g := r.finish
    g.check = .ok () ∧
      (g.labels.toList.map Text.octets).Pairwise (· < ·) ∧
      (∀ targets ∈ g.targets, targets.Pairwise (· < ·)) ∧
      (∀ r', r.Shuffled r' → r'.finish = g) ∧
      ∀ e edge, g.edgeAt e = .ok edge →
        edge.pairs ≠ [] ∧ (edge.pairs.map StackPair.key).Nodup ∧ ∃ A B, g.Joins e A B ∧
          edge.pairs.Pairwise fun p q => q.count < p.count ∨ q.count = p.count ∧
            (between (Ledger.replay calls).log A B).idxOf p.key <
              (between (Ledger.replay calls).log A B).idxOf q.key := by
  intro r g
  have htracks := (mirrors_run table calls).tracks
  -- the table at the end of the run holds what it held at any earlier time
  have hholds : ∀ {stack}, (∃ call ∈ calls, call.stack? = some stack) →
      ∀ pos ∈ stack.frames, r.table.Holds pos := by
    rintro stack ⟨call, hcall, hstack⟩ pos hpos
    obtain ⟨before, ⟨after, rfl⟩, hbefore⟩ := hframes call hcall stack hstack pos hpos
    refine StackTable.GrowsTo.holds ?_ hbefore
    have hrun : r = ((empty table).run before).run after := List.foldl_append
    rw [hrun]
    exact growsTo_run _ after
  refine ⟨?_, ?_, ?_, ?_, ?_⟩
  · exact Graph.check_eq_ok_iff.mpr (sound_finish htracks
      (fun s hs => hholds (Ledger.exists_stack?_of_log hs).1)
      fun s hs => hholds (Ledger.exists_stack?_of_log hs).2)
  · rw [List.pairwise_map]
    exact (sorted_labels_finish htracks).imp Text.octets_lt_octets
  · intro targets htargets
    obtain ⟨c, hc, rfl⟩ : ∃ c ∈ r.classOrder,
        (r.outEdges r.classOrder c).map Prod.fst = targets := by
      simpa [g, finish] using htargets
    exact sorted_outEdges htracks c
  · exact fun r' hs => finish_eq_of_shuffled hs htracks
  · exact fun e edge hedge => exists_joins_pairwise htracks hedge

/-- A frame that is interned only after the lock was taken with it, and three sightings of two
pairs. -/
theorem finish_sound_and_canonical_late :
    let a : Stack := ⟨[.resolved 0 0 7]⟩
    let b : Stack := ⟨[.unresolved "b"]⟩
    let calls : List Call := [.name 20 "x", .acquire 1 10 a, .mayAcquire 1 20 b,
      .mayAcquire 1 20 a, .mayAcquire 1 20 a, .intern [.inl ⟨"main", "f.c", 7⟩]]
    let g := ((empty .empty).run calls).finish
    g.check = .ok () ∧ (g.labels.toList.map Text.octets).Pairwise (· < ·) ∧
      ∀ targets ∈ g.targets, targets.Pairwise (· < ·) := by
  intro a b calls g
  have hframe : ((empty .empty).run calls).table.Holds (.resolved 0 0 7) := ⟨by decide, by decide⟩
  have hholds : ∀ call ∈ calls, ∀ stack ∈ call.stack?, ∀ pos ∈ stack.frames,
      ((empty .empty).run calls).table.Holds pos := by
    simpa [calls, a, b, Call.stack?, StackTable.Holds] using hframe
  obtain ⟨hcheck, hlabels, htargets, _⟩ := finish_sound_and_canonical .empty calls
    fun call hcall stack hstack pos hpos =>
      ⟨calls, List.prefix_rfl, hholds call hcall stack hstack pos hpos⟩
  exact ⟨hcheck, hlabels, htargets⟩

end Recorder

end LockOrder
