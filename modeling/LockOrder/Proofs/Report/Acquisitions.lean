import LockOrder.Proofs.Report.Calls

/-!
# The acquisitions behind an edge

A red arrow of a drawing leads from where one lock was taken to where another one was, and tells how
often that was seen. There is one for each pair of keys of innermost frames, and it adds up the
counts of all pairs of stacks that end there, even if they became alike only by trimming. No count
is lost and none is added twice, so together the arrows tell how often the edge was seen.

## Main definitions

* `CallGraph.endKeys` — the keys of the innermost frames of a pair of stacks
* `CallGraph.nodesOf` — the nodes with two keys
* `CallGraph.counts` — the counts of the pairs of stacks, under these nodes

## Main results

* `CallGraph.total_filter_totals`, `CallGraph.total_totals` — totals by key add up
* `CallGraph.acquisitions_eq_map` — the acquisitions of a call graph
* `Report.edgeDot_sums_acquisitions` — the red arrows of a drawing
-/

namespace LockOrder

/-! ### Totals -/

theorem total_perm {xs ys : List Nat} (h : xs.Perm ys) : total xs = total ys := by
  induction h with
  | nil => rfl
  | cons n _ ih => rw [total_cons, total_cons, ih]
  | swap m n rest =>
    simp only [total_cons]
    omega
  | trans _ _ ih ih' => exact ih.trans ih'

theorem total_flatMap {α : Type} (f : α → List Nat) (xs : List α) :
    total (xs.flatMap f) = total (xs.map fun x => total (f x)) := by
  induction xs with
  | nil => rfl
  | cons x xs ih => rw [List.flatMap_cons, total_append, ih, List.map_cons, total_cons]

namespace CallGraph

variable {grain : Grain} {pairs : List StackPair} {p : StackPair} {ks ks' : Key × Key}

theorem totals_eq_map (counts : List ((Nat × Nat) × Nat)) :
    totals counts = (firstSeen id (counts.map Prod.fst)).map fun key =>
      (key, total ((counts.filter fun entry => entry.1 = key).map Prod.snd)) := by
  rw [totals, ← map_firstSeen, List.map_map]
  rfl

theorem map_fst_totals (counts : List ((Nat × Nat) × Nat)) :
    (totals counts).map Prod.fst = firstSeen id (counts.map Prod.fst) := by
  rw [totals_eq_map, List.map_map]
  exact List.map_id _

theorem mem_map_fst_totals {counts : List ((Nat × Nat) × Nat)} {key : Nat × Nat} :
    key ∈ (totals counts).map Prod.fst ↔ key ∈ counts.map Prod.fst := by
  rw [map_fst_totals, mem_firstSeen_id]

theorem eq_total_of_mem_totals {counts : List ((Nat × Nat) × Nat)} {entry : (Nat × Nat) × Nat}
    (h : entry ∈ totals counts) :
    entry.2 = total ((counts.filter fun e => e.1 = entry.1).map Prod.snd) := by
  rw [totals_eq_map] at h
  obtain ⟨key, _, rfl⟩ := List.mem_map.mp h
  rfl

/-- The totals of some of the keys add up to the total of what has these keys. -/
theorem total_filter_totals (keep : Nat × Nat → Bool) (counts : List ((Nat × Nat) × Nat)) :
    total (((totals counts).filter fun entry => keep entry.1).map Prod.snd) =
      total ((counts.filter fun entry => keep entry.1).map Prod.snd) := by
  let keys := (firstSeen id (counts.map Prod.fst)).filter keep
  let kept := counts.filter fun entry => keep entry.1
  -- every entry to keep has its place under one of the keys to keep
  have hperm : (keys.flatMap fun key => kept.filter fun entry => entry.1 = key).Perm kept := by
    refine flatMap_filter_perm ((nodup_firstSeen_id _).filter keep) fun entry hentry => ?_
    obtain ⟨hmem, hkeep⟩ := List.mem_filter.mp hentry
    exact List.mem_filter.mpr ⟨mem_firstSeen_id.mpr (List.mem_map_of_mem hmem), hkeep⟩
  have hfilter : ∀ key ∈ keys, (counts.filter fun entry => entry.1 = key) =
      kept.filter fun entry => entry.1 = key := by
    intro key hkey
    rw [List.filter_filter]
    refine List.filter_congr fun entry _ => ?_
    by_cases hentry : entry.1 = key
    · simp [hentry, (List.mem_filter.mp hkey).2]
    · simp [hentry]
  rw [totals_eq_map, List.filter_map, List.map_map]
  calc total (keys.map fun key =>
        total ((counts.filter fun entry => entry.1 = key).map Prod.snd))
      = total (keys.map fun key =>
          total ((kept.filter fun entry => entry.1 = key).map Prod.snd)) := by
        rw [List.map_congr_left fun key hkey => by rw [hfilter key hkey]]
    _ = total ((keys.flatMap fun key => kept.filter fun entry => entry.1 = key).map Prod.snd) := by
        rw [List.map_flatMap, total_flatMap]
    _ = total (kept.map Prod.snd) := total_perm (hperm.map Prod.snd)

/-- The totals of all keys add up to the total. -/
theorem total_totals (counts : List ((Nat × Nat) × Nat)) :
    total ((totals counts).map Prod.snd) = total (counts.map Prod.snd) := by
  simpa using total_filter_totals (fun _ => true) counts

/-! ### Ends of acquisitions -/

/-- The keys of the innermost frames of a pair of stacks. -/
def endKeys (grain : Grain) (p : StackPair) : Option (Key × Key) :=
  (innermostOf p).map fun ends => (grain.key ends.1, grain.key ends.2)

/-- The nodes with the given keys. -/
def nodesOf (grain : Grain) (g : CallGraph) (ks : Key × Key) : Nat × Nat :=
  ((g.keys grain).idxOf ks.1, (g.keys grain).idxOf ks.2)

/-- The count of each pair of stacks, under the nodes of its innermost frames. -/
def counts (grain : Grain) (pairs : List StackPair) : List ((Nat × Nat) × Nat) :=
  pairs.filterMap fun p =>
    (endKeys grain p).map fun ks => ((ofPairs grain pairs).nodesOf grain ks, p.count)

/-- The keys of innermost frames are keys of nodes. -/
theorem mem_keys_of_endKeys (hp : p ∈ pairs) (hks : endKeys grain p = some ks) :
    ks.1 ∈ (ofPairs grain pairs).keys grain ∧ ks.2 ∈ (ofPairs grain pairs).keys grain := by
  obtain ⟨ends, hends, rfl⟩ := Option.map_eq_some_iff.mp hks
  obtain ⟨hfirst, hsecond⟩ := mem_drawn_of_innermostOf hp hends
  exact ⟨key_mem_keys grain hfirst, key_mem_keys grain hsecond⟩

/-- Different keys have different nodes. -/
theorem nodesOf_injOn (hks : ks ∈ pairs.filterMap (endKeys grain))
    (heq : (ofPairs grain pairs).nodesOf grain ks = (ofPairs grain pairs).nodesOf grain ks') :
    ks = ks' := by
  obtain ⟨p, hp, hends⟩ := List.mem_filterMap.mp hks
  obtain ⟨hfirst, hsecond⟩ := mem_keys_of_endKeys hp hends
  obtain ⟨heq, heq'⟩ := Prod.mk.inj heq
  exact Prod.ext ((List.idxOf_inj hfirst).mp heq) ((List.idxOf_inj hsecond).mp heq')

/-- The counts stand under the nodes of the innermost frames. -/
theorem counts_eq_filterMap (grain : Grain) (pairs : List StackPair) :
    counts grain pairs = pairs.filterMap fun p => (innermostOf p).map fun ends =>
      ((nodeOf grain (ofPairs grain pairs).nodes ends.1,
        nodeOf grain (ofPairs grain pairs).nodes ends.2), p.count) := by
  apply List.filterMap_congr
  intro p _
  rw [endKeys, Option.map_map]
  congr 1
  funext ends
  rw [nodeOf_eq_idxOf, nodeOf_eq_idxOf]
  rfl

/-- The acquisitions are the totals of the counts by the nodes of the innermost frames. -/
theorem acquisitions_eq_totals (grain : Grain) (pairs : List StackPair) :
    (ofPairs grain pairs).acquisitions = totals (counts grain pairs) :=
  congrArg totals (counts_eq_filterMap grain pairs).symm

/-- The counts under the nodes of two keys are those of the pairs of stacks with these keys. -/
theorem counts_of_endKeys (hks : ks ∈ pairs.filterMap (endKeys grain)) :
    ((counts grain pairs).filter fun entry =>
      entry.1 = (ofPairs grain pairs).nodesOf grain ks).map Prod.snd =
    (pairs.filter fun p => endKeys grain p = some ks).map StackPair.count := by
  rw [counts, List.filter_filterMap, List.map_filterMap, ← List.filterMap_eq_map,
    List.filterMap_filter]
  apply List.filterMap_congr
  intro p _
  cases endKeys grain p with
  | none => rfl
  | some ks' =>
    -- the nodes are the same only if the keys are
    have hnodes : (ofPairs grain pairs).nodesOf grain ks' = (ofPairs grain pairs).nodesOf grain ks ↔
        ks' = ks := ⟨fun h => (nodesOf_injOn hks h.symm).symm, congrArg _⟩
    by_cases heq : ks' = ks <;> simp [hnodes, heq]

/-- The counts are seen under nodes in the order in which the keys of the nodes are seen. -/
theorem map_fst_counts (grain : Grain) (pairs : List StackPair) :
    (counts grain pairs).map Prod.fst =
      (pairs.filterMap (endKeys grain)).map ((ofPairs grain pairs).nodesOf grain) := by
  rw [counts, List.map_filterMap, List.map_filterMap]
  apply List.filterMap_congr
  intro p _
  rw [Option.map_map]
  rfl

/-- There is an acquisition for each pair of keys of innermost frames, in the order in which the
pairs are first seen, and it adds up the counts of all pairs of stacks with these keys. -/
theorem acquisitions_eq_map (grain : Grain) (pairs : List StackPair) :
    (ofPairs grain pairs).acquisitions =
      (firstSeen id (pairs.filterMap (endKeys grain))).map fun ks =>
        ((ofPairs grain pairs).nodesOf grain ks,
          total ((pairs.filter fun p => endKeys grain p = some ks).map StackPair.count)) := by
  -- nodes and keys correspond one to one, so that both are first seen in the same order
  rw [acquisitions_eq_totals, totals_eq_map, map_fst_counts,
    firstSeen_map_of_injOn fun ks hks ks' _ heq => nodesOf_injOn hks heq, List.map_map]
  apply List.map_congr_left
  intro ks hks
  exact Prod.ext rfl (congrArg total (counts_of_endKeys (mem_firstSeen_id.mp hks)))

/-- The nodes of two keys of innermost frames have these keys. -/
theorem getElem?_keys_nodesOf (hks : ks ∈ pairs.filterMap (endKeys grain)) :
    ((ofPairs grain pairs).keys grain)[((ofPairs grain pairs).nodesOf grain ks).1]? = some ks.1 ∧
      ((ofPairs grain pairs).keys grain)[((ofPairs grain pairs).nodesOf grain ks).2]? =
        some ks.2 := by
  obtain ⟨p, hp, hends⟩ := List.mem_filterMap.mp hks
  obtain ⟨hfirst, hsecond⟩ := mem_keys_of_endKeys hp hends
  exact ⟨List.getElem?_idxOf hfirst, List.getElem?_idxOf hsecond⟩

theorem Places.exists_endKeys (h : Places grain pairs) (hp : p ∈ pairs) :
    ∃ ks, endKeys grain p = some ks := by
  obtain ⟨ends, hends⟩ := h.innermost p hp
  exact ⟨_, by rw [endKeys, hends, Option.map_some]⟩

/-- The acquisitions add up to the counts of all pairs of stacks. -/
theorem Places.total_acquisitions (h : Places grain pairs) :
    total ((ofPairs grain pairs).acquisitions.map Prod.snd) =
      total (pairs.map StackPair.count) := by
  rw [acquisitions_eq_totals, total_totals, counts, List.map_filterMap, ← List.filterMap_eq_map]
  congr 1
  -- no pair of stacks is left out, since each has innermost frames
  apply List.filterMap_congr
  intro p hp
  obtain ⟨ks, hks⟩ := h.exists_endKeys hp
  rw [hks]
  rfl

end CallGraph

namespace Report

variable {settings : Settings} {table : StackTable}

/-- Trimming keeps the counts. -/
theorem map_count_of_trims {pairs pairs' : List StackPair}
    (h : List.Forall₂ (TrimsPair settings table) pairs pairs') :
    pairs'.map StackPair.count = pairs.map StackPair.count := by
  induction h with
  | nil => rfl
  | cons hp _ ih => rw [List.map_cons, List.map_cons, hp.count, ih]

/-- No red arrow is labelled with more than the counts of all pairs of stacks together. -/
theorem label_le_of_mem_redArrows {grain : Grain} {pairs : List StackPair} {red : RedArrow}
    (h : red ∈ redArrows settings (.ofPairs grain pairs)) :
    red.label ≤ total (pairs.map StackPair.count) := by
  obtain ⟨entry, hentry, rfl⟩ := List.mem_map.mp h
  exact CallGraph.weight_le hentry

/-- **The acquisitions add up all the evidence.** For each edge of a graph that passes the check and
was not seen too often to be counted, in either grain and under any settings, the drawing of the
calls behind the edge has one red arrow for each pair of keys of the innermost frames of the first
and the second stack, trimmed, of a pair, in the order in which these are first seen. It is labelled
with the sum of the counts of the pairs of stacks with these keys. Every pair of stacks has such
keys, so the labels add up to the count of the edge. -/
theorem edgeDot_sums_acquisitions (g : Graph) (hg : g.check = .ok ()) (e : EdgeId) (edge : Edge)
    (he : g.edgeAt e = .ok edge) (hcount : edge.totalCount < wordBound) (settings : Settings)
    (grain : Grain) :
    ∃ (pairs : List StackPair) (labels : List String) (drawing : CallGraph)
        (reds : List RedArrow) (ends : List (Key × Key)),
      edge.pairs.mapM (trimPair settings g.table) = .ok pairs ∧
      List.Forall₂ (TrimsPair settings g.table) edge.pairs pairs ∧
      ((edgeDot settings g.table grain edge).run none).2 =
        .ok (linesText (callGraphLines labels drawing.calls reds)) ∧
      IsFirstSeen grain.key (CallGraph.drawn pairs) drawing.nodes ∧
      List.Forall₂ (grain.Labels g.table) drawing.nodes labels ∧
      (∀ p ∈ pairs, ∃ ks, CallGraph.endKeys grain p = some ks) ∧
      IsFirstSeen id (pairs.filterMap (CallGraph.endKeys grain)) ends ∧
      List.Forall₂ (fun ks red =>
        (drawing.keys grain)[red.ends.1]? = some ks.1 ∧
        (drawing.keys grain)[red.ends.2]? = some ks.2 ∧
        red.label = total ((pairs.filter fun p =>
          CallGraph.endKeys grain p = some ks).map StackPair.count)) ends reds ∧
      total (reds.map RedArrow.label) = edge.totalCount ∧
      ∀ red ∈ reds, red.label < wordBound := by
  have hsound := (Graph.check_eq_ok_iff.mp hg).sound_of_edgeAt he
  obtain ⟨pairs, labels, hpairs, htrims, hframes, hlabels, htext⟩ :=
    exists_callGraph settings grain hsound
  have hplaces : CallGraph.Places grain pairs := CallGraph.places grain hframes
  have htotal : total (pairs.map StackPair.count) = edge.totalCount := by
    rw [map_count_of_trims htrims, Edge.totalCount]
  refine ⟨pairs, labels, .ofPairs grain pairs, redArrows settings (.ofPairs grain pairs),
    firstSeen id (pairs.filterMap (CallGraph.endKeys grain)), hpairs, htrims, htext,
    CallGraph.isFirstSeen_nodes grain pairs, hlabels, fun p hp => hplaces.exists_endKeys hp,
    isFirstSeen_firstSeen id _, ?arrows, ?sum, fun red hred => ?word⟩
  case arrows =>
    rw [redArrows, List.forall₂_map_right_iff, CallGraph.acquisitions_eq_map,
      List.forall₂_map_right_iff, List.forall₂_same]
    intro ks hks
    obtain ⟨hfirst, hsecond⟩ := CallGraph.getElem?_keys_nodesOf (mem_firstSeen_id.mp hks)
    exact ⟨hfirst, hsecond, rfl⟩
  case sum =>
    rw [map_label_redArrows, hplaces.total_acquisitions, htotal]
  case word =>
    exact Nat.lt_of_le_of_lt (label_le_of_mem_redArrows hred) (htotal ▸ hcount)

/-- Two pairs of stacks end alike only after the function that every thread ends in is left out, and
are drawn as one arrow with both counts. -/
theorem edgeDot_sums_acquisitions_trimmed :
    let edge : Edge := ⟨[⟨⟨[.resolved 0 0 7, .resolved 0 1 3]⟩, ⟨[.resolved 0 1 3]⟩, 3⟩,
      ⟨⟨[.resolved 0 0 9]⟩, ⟨[.resolved 0 0 7]⟩, 2⟩, ⟨⟨[.resolved 0 0 8]⟩, ⟨[]⟩, 1⟩]⟩
    let g : Graph := ⟨#["a", "b"], #[[edge], []], #[[1], []],
      ⟨⟨#["x/a.c"]⟩, ⟨#["main", "runtime.goexit"]⟩⟩⟩
    g.check = .ok () ∧ g.edgeAt ⟨0, 0⟩ = .ok edge ∧ edge.totalCount < wordBound ∧
      ∃ (labels : List String) (drawing : CallGraph) (reds : List RedArrow),
        ((edgeDot {} g.table .function edge).run none).2 =
          .ok (linesText (callGraphLines labels drawing.calls reds)) ∧
        (∃ red ∈ reds, drawing.Shows .function red.ends.1 (.resolved 0 0 7) ∧
          drawing.Shows .function red.ends.2 (.unresolved "missing stack") ∧ red.label = 4) ∧
        total (reds.map RedArrow.label) = 6 := by
  intro edge g
  have hcount : edge.totalCount < wordBound := by decide
  obtain ⟨pairs, labels, drawing, reds, ends, hpairs, _, htext, _, _, _, hends, harrows, htotal,
    _⟩ := edgeDot_sums_acquisitions g rfl ⟨0, 0⟩ edge rfl hcount {} .function
  obtain rfl : [⟨⟨[.resolved 0 0 7]⟩, ⟨[.unresolved "missing stack"]⟩, 3⟩,
      ⟨⟨[.resolved 0 0 9]⟩, ⟨[.resolved 0 0 7]⟩, 2⟩,
      ⟨⟨[.resolved 0 0 8]⟩, ⟨[.unresolved "missing stack"]⟩, 1⟩] = pairs := Except.ok.inj hpairs
  have hks : (Key.function 0, Key.frame (.unresolved "missing stack")) ∈ ends.map id :=
    (hends.covers _).mpr (by decide)
  rw [List.map_id] at hks
  obtain ⟨i, hi⟩ := List.mem_iff_getElem?.mp hks
  obtain ⟨red, hred, hfirst, hsecond, hlabel⟩ := exists_getElem?_of_forall₂ harrows hi
  exact ⟨rfl, rfl, hcount, labels, drawing, reds, htext,
    ⟨red, List.mem_of_getElem? hred, CallGraph.shows_iff.mpr hfirst,
      CallGraph.shows_iff.mpr hsecond, hlabel.trans (by decide)⟩, htotal⟩

end Report

end LockOrder
