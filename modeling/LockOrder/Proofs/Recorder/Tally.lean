import LockOrder.Proofs.Recorder.Evidence

/-!
# Counting without a hash

The plain way to count sightings is to go through the list of pairs: a pair that is found is
counted where it stands, and a pair that is not found comes to the end. Evidence looks into the
bucket of a hash instead. The edge that it makes is the one that the plain way makes, whatever the
hash is: also when all pairs share one, or when a pair and its reverse do, as they always do under
the exclusive or of the hashes of their stacks.

## Main definitions

* `Evidence.tally`, `Evidence.scan` — counting by going through the pairs
* `Evidence.Ranked` — pairs by falling count, and in their old order where counts are equal

## Main results

* `Evidence.scan_eq_counted` — the plain way counts every pair
* `Evidence.Ranked.unique` — there is only one such order
* `Evidence.toEdge_ignores_hash` — the hash does not show in the edge
-/

namespace LockOrder.Evidence

variable {e : Evidence} {a b : Stack} {pairs sorted sorted' : List StackPair}

/-! ### The plain way -/

/-- Counts a sighting of two stacks by going through the pairs. -/
def tally (first second : Stack) : List StackPair → List StackPair
  | [] => [⟨first, second, 1⟩]
  | pair :: rest =>
    if pair.key = (first, second) then { pair with count := pair.count + 1 } :: rest
    else pair :: tally first second rest

/-- Counts all sightings of a list, one after another. -/
def scan (seen : List (Stack × Stack)) : List StackPair :=
  seen.foldl (fun pairs sighting => tally sighting.1 sighting.2 pairs) []

theorem tally_of_forall_ne (h : ∀ pair ∈ pairs, pair.key ≠ (a, b)) :
    tally a b pairs = pairs ++ [⟨a, b, 1⟩] := by
  induction pairs with
  | nil => rfl
  | cons pair rest ih =>
    obtain ⟨hpair, hrest⟩ := List.forall_mem_cons.mp h
    rw [tally, if_neg hpair, ih hrest, List.cons_append]

/-- Where keys differ, a pair is counted where it stands. -/
theorem tally_of_getElem? {i : Nat} (hkeys : (pairs.map StackPair.key).Nodup)
    (hi : (pairs.map StackPair.key)[i]? = some (a, b)) :
    tally a b pairs = pairs.modify i fun pair => { pair with count := pair.count + 1 } := by
  induction pairs generalizing i with
  | nil => simp at hi
  | cons pair rest ih =>
    rw [List.map_cons, List.nodup_cons] at hkeys
    cases i with
    | zero =>
      have hpair : pair.key = (a, b) := by simpa using hi
      rw [tally, if_pos hpair, List.modify_zero_cons]
    | succ i =>
      have hi' : (rest.map StackPair.key)[i]? = some (a, b) := by simpa using hi
      -- the key stands further on, so it is not that of the first pair
      have hpair : pair.key ≠ (a, b) := fun heq => hkeys.1 (heq ▸ List.mem_of_getElem? hi')
      rw [tally, if_neg hpair, ih hkeys.2 hi', List.modify_succ_cons]

/-- One more sighting, by going through the pairs that were counted. -/
theorem tally_counted (seen : List (Stack × Stack)) (a b : Stack) :
    tally a b (counted seen) = counted (seen ++ [(a, b)]) := by
  by_cases hmem : (a, b) ∈ seen
  · obtain ⟨i, hi⟩ := List.mem_iff_getElem?.mp (List.mem_eraseDups.mpr hmem)
    rw [counted_concat_of_getElem? hi]
    refine tally_of_getElem? ?_ ?_
    · rw [map_key_counted]
      exact nodup_eraseDups seen
    · rw [map_key_counted, hi]
  · rw [counted_concat_of_notMem hmem]
    refine tally_of_forall_ne fun pair hpair heq => hmem ?_
    rw [← heq, ← List.mem_eraseDups, ← map_key_counted]
    exact List.mem_map_of_mem hpair

/-- The plain way gives the different pairs in the order in which they were first seen, each with
the number of its sightings. -/
theorem scan_eq_counted (seen : List (Stack × Stack)) : scan seen = counted seen := by
  induction seen using List.reverseRecOn with
  | nil => rfl
  | append_singleton seen sighting ih =>
    rw [scan, List.foldl_append, ← scan, ih]
    exact tally_counted seen sighting.1 sighting.2

/-! ### Pairs by falling count -/

/-- A list has the pairs of another one by falling count, and pairs with equal counts in the order
of the other list. -/
structure Ranked (pairs sorted : List StackPair) : Prop where
  /-- The pairs are the same. -/
  perm : sorted.Perm pairs
  /-- The counts fall, and where they are equal the old order stays. -/
  pairwise : sorted.Pairwise fun p q =>
    q.count < p.count ∨ q.count = p.count ∧ pairs.idxOf p < pairs.idxOf q

/-- There is only one such order. -/
theorem Ranked.unique (h : Ranked pairs sorted) (h' : Ranked pairs sorted') : sorted = sorted' := by
  refine (h.perm.trans h'.perm.symm).eq_of_pairwise (fun p q _ _ hpq hqp => ?_) h.pairwise
    h'.pairwise
  -- no two pairs can stand both ways
  omega

/-- An edge has the pairs of its evidence by falling count. -/
theorem ranked_toEdge (h : e.pairs.toList.Nodup) : Ranked e.pairs.toList e.toEdge.pairs := by
  have hplaces : e.pairs.toList.Pairwise fun p q =>
      e.pairs.toList.idxOf p < e.pairs.toList.idxOf q := by
    refine List.pairwise_iff_getElem.mpr fun i j hi hj hij => ?_
    rwa [h.idxOf_getElem i hi, h.idxOf_getElem j hj]
  exact ⟨e.toEdge_perm, pairwise_toEdge_of_pairwise hplaces⟩

/-- The evidence of a list of sightings has the pairs of a plain count. -/
theorem pairs_ofSightingsWith (hash : Stack → UInt64) (seen : List (Stack × Stack)) :
    (ofSightingsWith hash seen).pairs.toList = scan seen := by
  rw [(represents_ofSightingsWith hash seen).pairs_eq, scan_eq_counted]

theorem nodup_scan (seen : List (Stack × Stack)) : (scan seen).Nodup := by
  have hkeys : ((scan seen).map StackPair.key).Nodup := by
    rw [scan_eq_counted, map_key_counted]
    exact nodup_eraseDups seen
  exact hkeys.of_map _

/-! ### The hash does not show -/

/-- **The hash of stacks does not show.** Whatever it is, and whatever pairs of stacks share a hash
under it, the edge of a list of sightings is the one that a plain count gives: the different pairs
in the order in which they were first seen, each with the number of its sightings, are put in the
order of falling counts, and pairs with equal counts stay as they were. In particular it is the edge
that the hash in use gives. -/
theorem toEdge_ignores_hash (hash : Stack → UInt64) (seen : List (Stack × Stack)) :
    let edge := (seen.foldl (fun e pair => e.addWith hash pair.1 pair.2) empty).toEdge
    scan seen = seen.eraseDups.map (fun pair => ⟨pair.1, pair.2, seen.count pair⟩) ∧
      (∀ pairs, edge.pairs = pairs ↔ Ranked (scan seen) pairs) ∧
      (seen.foldl (fun e pair => e.add pair.1 pair.2) empty).toEdge = edge := by
  intro edge
  have hranked : ∀ hash, Ranked (scan seen) (ofSightingsWith hash seen).toEdge.pairs := by
    intro hash
    rw [← pairs_ofSightingsWith hash]
    apply ranked_toEdge
    rw [pairs_ofSightingsWith]
    exact nodup_scan seen
  refine ⟨scan_eq_counted seen, fun pairs => ⟨?_, ?_⟩, ?_⟩
  · rintro rfl
    exact hranked hash
  · exact (hranked hash).unique
  · exact congrArg Edge.mk ((hranked Stack.hash).unique (hranked hash))

/-- A pair and its reverse share a bucket and are still counted apart. -/
example :
    let a : Stack := ⟨[.resolved 0 0 7]⟩
    let b : Stack := ⟨[.resolved 0 1 2]⟩
    let e := ofSightings [(a, b), (b, a), (b, a)]
    e.buckets.entries.map Prod.snd = [[0, 1]] ∧ e.pairs = #[⟨a, b, 1⟩, ⟨b, a, 2⟩] := by
  decide

end LockOrder.Evidence
