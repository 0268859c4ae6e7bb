import LockOrder.Proofs.Dictionary
import LockOrder.Recorder.Evidence
import Mathlib.Data.List.Induction

/-!
# Evidence as a counted list

Evidence keeps the pairs of stacks in the order in which they were first seen, and finds a pair
through the bucket of its hash. Whatever the hash is, and whatever pairs share one, evidence holds
the different pairs of the sightings, each with the number of its sightings.

## Main definitions

* `StackPair.key` — what tells a pair from others
* `Evidence.counted` — the different pairs of a list of sightings, with their numbers
* `Evidence.Represents` — evidence holds the pairs of a list of sightings
* `Evidence.ofSightingsWith`, `Evidence.ofSightings` — the evidence of a list of sightings

## Main results

* `Evidence.Represents.addWith` — one more sighting
* `Evidence.represents_ofSightingsWith` — evidence holds what was seen
* `Evidence.mem_toEdge_iff`, `Evidence.nodup_toEdge` — the pairs of an edge
* `Evidence.pairwise_toEdge` — they stand by falling count, then as they were first seen
-/

namespace LockOrder

/-- The different elements of a longer list, in the order in which they first come. -/
theorem eraseDups_concat {α : Type} [BEq α] [LawfulBEq α] (xs : List α) (x : α) :
    (xs ++ [x]).eraseDups =
      if xs.contains x then xs.eraseDups else xs.eraseDups ++ [x] := by
  rw [List.eraseDups_append]
  by_cases hx : x ∈ xs <;> simp [List.removeAll, hx, List.eraseDups_cons]

theorem nodup_eraseDups {α : Type} [BEq α] [LawfulBEq α] (xs : List α) : xs.eraseDups.Nodup := by
  induction xs using List.reverseRecOn with
  | nil => simp
  | append_singleton xs x ih =>
    rw [eraseDups_concat]
    split
    · exact ih
    · next hx =>
      exact ih.append (List.nodup_singleton x) (by simpa [List.mem_eraseDups] using hx)

/-- The elements of a list without repetitions stand in the order of their first places. -/
theorem pairwise_idxOf_eraseDups {α : Type} [BEq α] [LawfulBEq α] (xs : List α) :
    xs.eraseDups.Pairwise fun x y => xs.idxOf x < xs.idxOf y := by
  induction xs using List.reverseRecOn with
  | nil => simp
  | append_singleton xs x ih =>
    have hold : (xs.eraseDups).Pairwise fun y z => (xs ++ [x]).idxOf y < (xs ++ [x]).idxOf z := by
      refine ih.imp_of_mem fun hy hz hlt => ?_
      rwa [List.idxOf_append_of_mem (List.mem_eraseDups.mp hy),
        List.idxOf_append_of_mem (List.mem_eraseDups.mp hz)]
    rw [eraseDups_concat]
    split
    · exact hold
    · next hx =>
      rw [List.pairwise_append]
      refine ⟨hold, List.pairwise_singleton _ _, fun y hy z hz => ?_⟩
      obtain rfl := List.mem_singleton.mp hz
      have hy' : y ∈ xs := List.mem_eraseDups.mp hy
      rw [List.idxOf_append_of_mem hy', List.idxOf_append_of_notMem (by simpa using hx)]
      exact Nat.lt_add_right _ (List.idxOf_lt_length_of_mem hy')

/-- A stable sort leaves elements that compare equal in their order. -/
theorem pairwise_mergeSort_stable {α : Type} {le : α → α → Bool} {before : α → α → Prop}
    (htrans : ∀ a b c, le a b → le b c → le a c) (htotal : ∀ a b, le a b || le b a)
    {xs : List α} (hxs : xs.Pairwise before) :
    (xs.mergeSort le).Pairwise fun a b => le a b ∧ (le b a → before a b) := by
  rw [← List.mergeSort_zipIdx, List.pairwise_map]
  have hsorted := List.pairwise_mergeSort (List.zipIdxLE_trans htrans) (List.zipIdxLE_total htotal)
    xs.zipIdx
  have hperm := List.mergeSort_perm xs.zipIdx (List.zipIdxLE le)
  have hnodup : ((xs.zipIdx).mergeSort (List.zipIdxLE le)).Pairwise fun a b => a.2 ≠ b.2 := by
    rw [← List.pairwise_map (f := Prod.snd) (R := (· ≠ ·))]
    refine (hperm.map Prod.snd).nodup_iff.mpr ?_
    simpa using List.nodup_range'
  refine (hsorted.and hnodup).imp_of_mem fun {a b} ha hb hab => ?_
  have ha' := List.mem_zipIdx_iff_getElem?.mp (hperm.mem_iff.mp ha)
  have hb' := List.mem_zipIdx_iff_getElem?.mp (hperm.mem_iff.mp hb)
  obtain ⟨hle, hne⟩ := hab
  have hab : le a.1 b.1 = true := by
    by_contra hnot
    simp [List.zipIdxLE, hnot] at hle
  refine ⟨hab, fun hba => ?_⟩
  have hlt : a.2 < b.2 := by
    simp only [List.zipIdxLE, hab, hba, if_true, decide_eq_true_eq] at hle
    exact Nat.lt_of_le_of_ne hle hne
  obtain ⟨hi, hai⟩ := List.getElem?_eq_some_iff.mp ha'
  obtain ⟨hj, hbj⟩ := List.getElem?_eq_some_iff.mp hb'
  rw [← hai, ← hbj]
  exact List.pairwise_iff_getElem.mp hxs _ _ hi hj hlt

/-- What tells a pair of stacks from others. -/
def StackPair.key (p : StackPair) : Stack × Stack := (p.first, p.second)

namespace Evidence

variable {hash : Stack → UInt64} {e : Evidence} {seen : List (Stack × Stack)} {a b : Stack}

/-- The different pairs of a list of sightings in the order in which they were first seen, each
with the number of its sightings. -/
def counted (seen : List (Stack × Stack)) : List StackPair :=
  seen.eraseDups.map fun pair => ⟨pair.1, pair.2, seen.count pair⟩

theorem getElem?_counted (i : Nat) :
    (counted seen)[i]? = seen.eraseDups[i]?.map fun pair => ⟨pair.1, pair.2, seen.count pair⟩ := by
  rw [counted, List.getElem?_map]

theorem counted_concat_of_notMem (h : (a, b) ∉ seen) :
    counted (seen ++ [(a, b)]) = counted seen ++ [⟨a, b, 1⟩] := by
  rw [counted, eraseDups_concat, if_neg (by simpa using h), List.map_append, counted]
  congr 1
  · refine List.map_congr_left fun pair hpair => ?_
    have hne : (a, b) ≠ pair := fun heq => h (heq ▸ List.mem_eraseDups.mp hpair)
    simp [List.count_append, hne]
  · simp [List.count_append, List.count_eq_zero.mpr h]

theorem counted_concat_of_getElem? {i : Nat} (h : seen.eraseDups[i]? = some (a, b)) :
    counted (seen ++ [(a, b)]) =
      (counted seen).modify i fun pair => { pair with count := pair.count + 1 } := by
  have hmem : (a, b) ∈ seen := List.mem_eraseDups.mp (List.mem_of_getElem? h)
  refine List.ext_getElem? fun j => ?_
  rw [getElem?_counted, eraseDups_concat, if_pos (by simpa using hmem), List.getElem?_modify,
    getElem?_counted]
  by_cases hij : i = j
  · subst hij
    simp [h, List.count_append, List.count_singleton]
  · cases hj : seen.eraseDups[j]? with
    | none => rfl
    | some pair =>
      -- no other position holds the pair
      have hne : (a, b) ≠ pair := by
        rintro rfl
        obtain ⟨hi, hi'⟩ := List.getElem?_eq_some_iff.mp h
        obtain ⟨hj', hj''⟩ := List.getElem?_eq_some_iff.mp hj
        exact hij ((nodup_eraseDups seen).getElem_inj_iff.mp (hi'.trans hj''.symm))
      simp [List.count_append, List.count_singleton, hne, hij]

/-- Evidence holds the different pairs of a list of sightings with their numbers, and every pair is
in the bucket of its hash and in no other. -/
structure Represents (hash : Stack → UInt64) (e : Evidence) (seen : List (Stack × Stack)) :
    Prop where
  /-- The pairs, in the order in which they were first seen. -/
  pairs_eq : e.pairs.toList = counted seen
  /-- The bucket of a hash holds the positions of the pairs with that hash. -/
  bucket_iff : ∀ (key : UInt64) (i : Nat), i ∈ (e.buckets.get? key).getD [] ↔
    ∃ pair, e.pairs[i]? = some pair ∧ hash pair.first ^^^ hash pair.second = key

theorem represents_empty : Represents hash empty [] := by
  refine ⟨rfl, fun key i => ?_⟩
  simp [empty]

theorem matchesAt_iff {i : Nat} :
    e.matchesAt a b i = true ↔ ∃ n, e.pairs[i]? = some ⟨a, b, n⟩ := by
  unfold matchesAt
  cases h : e.pairs[i]? with
  | none => simp
  | some pair =>
    obtain ⟨first, second, count⟩ := pair
    simp

theorem addWith_of_find?_eq_some {i : Nat}
    (h : ((e.buckets.get? (hash a ^^^ hash b)).getD []).find? (e.matchesAt a b) = some i) :
    e.addWith hash a b =
      ⟨e.pairs.modify i fun pair => { pair with count := pair.count + 1 }, e.buckets⟩ := by
  simp only [addWith, h]

theorem addWith_of_find?_eq_none
    (h : ((e.buckets.get? (hash a ^^^ hash b)).getD []).find? (e.matchesAt a b) = none) :
    e.addWith hash a b =
      ⟨e.pairs.push ⟨a, b, 1⟩, e.buckets.insert (hash a ^^^ hash b)
        ((e.buckets.get? (hash a ^^^ hash b)).getD [] ++ [e.pairs.size])⟩ := by
  simp only [addWith, h]

/-- One more sighting is one more in the list of sightings. -/
theorem Represents.addWith (h : Represents hash e seen) (a b : Stack) :
    Represents hash (e.addWith hash a b) (seen ++ [(a, b)]) := by
  have hget : ∀ i : Nat, e.pairs[i]? =
      seen.eraseDups[i]?.map fun pair => ⟨pair.1, pair.2, seen.count pair⟩ := by
    intro i
    rw [← Array.getElem?_toList, h.pairs_eq, getElem?_counted]
  cases hfind : ((e.buckets.get? (hash a ^^^ hash b)).getD []).find? (e.matchesAt a b) with
  | some i =>
    obtain ⟨n, hn⟩ := matchesAt_iff.mp (List.find?_some hfind)
    have hi : seen.eraseDups[i]? = some (a, b) := by
      rw [hget, Option.map_eq_some_iff] at hn
      obtain ⟨pair, hpair, heq⟩ := hn
      obtain ⟨rfl, rfl, _⟩ := StackPair.mk.inj heq
      exact hpair
    rw [addWith_of_find?_eq_some hfind]
    refine ⟨?_, fun key j => ?_⟩
    · rw [Array.toList_modify, h.pairs_eq, counted_concat_of_getElem? hi]
    · -- counting changes no stack, so the buckets stay right
      rw [h.bucket_iff, Array.getElem?_modify]
      by_cases hij : i = j
      · subst hij
        simp [hn]
      · simp [hij]
  | none =>
    -- a pair that was seen would stand in the bucket of its hash
    have hnew : (a, b) ∉ seen := by
      intro hmem
      obtain ⟨i, hi⟩ := List.mem_iff_getElem?.mp (List.mem_eraseDups.mpr hmem)
      have hpair : e.pairs[i]? = some ⟨a, b, seen.count (a, b)⟩ := by simp [hget, hi]
      have hbucket := (h.bucket_iff (hash a ^^^ hash b) i).mpr ⟨_, hpair, rfl⟩
      exact List.find?_eq_none.mp hfind i hbucket (matchesAt_iff.mpr ⟨_, hpair⟩)
    rw [addWith_of_find?_eq_none hfind]
    refine ⟨?_, fun key i => ?_⟩
    · rw [Array.toList_push, h.pairs_eq, counted_concat_of_notMem hnew]
    · have hpush : (e.pairs.push ⟨a, b, 1⟩)[i]? =
          if i = e.pairs.size then some ⟨a, b, 1⟩ else e.pairs[i]? := Array.getElem?_push
      have hsize : e.pairs[e.pairs.size]? = none := by simp
      rw [Dictionary.get?_insert]
      simp only [hpush]
      by_cases hkey : hash a ^^^ hash b = key
      · subst hkey
        rw [if_pos rfl, Option.getD_some, List.mem_append, h.bucket_iff, List.mem_singleton]
        by_cases hi : i = e.pairs.size
        · simp [hi]
        · simp [hi]
      · rw [if_neg hkey, h.bucket_iff]
        by_cases hi : i = e.pairs.size
        · simp [hi, hkey]
        · simp [hi]

/-- The evidence of a list of sightings, with a given hash function. -/
def ofSightingsWith (hash : Stack → UInt64) (seen : List (Stack × Stack)) : Evidence :=
  seen.foldl (fun e pair => e.addWith hash pair.1 pair.2) empty

/-- Evidence holds what was seen, whatever the hash is. -/
theorem represents_ofSightingsWith (hash : Stack → UInt64) (seen : List (Stack × Stack)) :
    Represents hash (ofSightingsWith hash seen) seen := by
  induction seen using List.reverseRecOn with
  | nil => exact represents_empty
  | append_singleton seen pair ih =>
    rw [ofSightingsWith, List.foldl_append]
    exact ih.addWith pair.1 pair.2

/-- The evidence of a list of sightings. -/
def ofSightings (seen : List (Stack × Stack)) : Evidence :=
  seen.foldl (fun e pair => e.add pair.1 pair.2) empty

theorem ofSightings_concat (seen : List (Stack × Stack)) (a b : Stack) :
    ofSightings (seen ++ [(a, b)]) = (ofSightings seen).add a b := by
  rw [ofSightings, List.foldl_append]
  rfl

/-- Evidence holds what was seen. -/
theorem represents_ofSightings (seen : List (Stack × Stack)) :
    Represents Stack.hash (ofSightings seen) seen :=
  represents_ofSightingsWith Stack.hash seen

/-! ### The pairs of an edge -/

theorem toEdge_perm (e : Evidence) : e.toEdge.pairs.Perm e.pairs.toList := by
  rw [toEdge]
  exact List.mergeSort_perm _ _

theorem mem_counted_iff {pair : StackPair} :
    pair ∈ counted seen ↔ 0 < pair.count ∧ pair.count = seen.count (pair.first, pair.second) := by
  rw [counted, List.mem_map]
  constructor
  · rintro ⟨x, hx, rfl⟩
    exact ⟨List.count_pos_iff.mpr (List.mem_eraseDups.mp hx), rfl⟩
  · rintro ⟨hpos, hcount⟩
    rw [hcount, List.count_pos_iff] at hpos
    exact ⟨(pair.first, pair.second), List.mem_eraseDups.mpr hpos, by rw [← hcount]⟩

/-- The pairs of an edge are those that were seen, with the number of their sightings. -/
theorem mem_toEdge_iff {pair : StackPair} :
    pair ∈ (ofSightings seen).toEdge.pairs ↔
      0 < pair.count ∧ pair.count = seen.count (pair.first, pair.second) := by
  rw [(toEdge_perm _).mem_iff, (represents_ofSightings seen).pairs_eq, mem_counted_iff]

theorem nodup_toEdge (seen : List (Stack × Stack)) : (ofSightings seen).toEdge.pairs.Nodup := by
  rw [(toEdge_perm _).nodup_iff, (represents_ofSightings seen).pairs_eq, counted]
  refine (nodup_eraseDups seen).map fun x y heq => ?_
  obtain ⟨h₁, h₂, _⟩ := StackPair.mk.inj heq
  exact Prod.ext h₁ h₂

/-! ### The order of the pairs -/

theorem map_key_counted (seen : List (Stack × Stack)) :
    (counted seen).map StackPair.key = seen.eraseDups := by
  simp [counted, Function.comp_def, StackPair.key]

/-- An edge has each of the pairs that were seen once. -/
theorem keys_toEdge_perm (seen : List (Stack × Stack)) :
    ((ofSightings seen).toEdge.pairs.map StackPair.key).Perm seen.eraseDups := by
  rw [← map_key_counted, ← (represents_ofSightings seen).pairs_eq]
  exact (toEdge_perm _).map _

/-- The pairs of an edge stand by falling count, and those with equal counts as they stood in the
evidence. -/
theorem pairwise_toEdge_of_pairwise {before : StackPair → StackPair → Prop}
    (h : e.pairs.toList.Pairwise before) :
    e.toEdge.pairs.Pairwise fun p q => q.count < p.count ∨ q.count = p.count ∧ before p q := by
  rw [toEdge]
  refine (pairwise_mergeSort_stable ?_ ?_ h).imp fun {p q} hpq => ?_
  · intro a b c hab hbc
    exact decide_eq_true (Nat.le_trans (of_decide_eq_true hbc) (of_decide_eq_true hab))
  · intro a b
    simpa using Nat.le_total b.count a.count
  · rcases Nat.lt_or_eq_of_le (of_decide_eq_true hpq.1) with hlt | heq
    · exact .inl hlt
    · exact .inr ⟨heq, hpq.2 (decide_eq_true (Nat.le_of_eq heq.symm))⟩

/-- The pairs of an edge stand by falling count, and those with equal counts in the order in which
they were first seen. -/
theorem pairwise_toEdge (seen : List (Stack × Stack)) :
    (ofSightings seen).toEdge.pairs.Pairwise fun p q =>
      q.count < p.count ∨ q.count = p.count ∧ seen.idxOf p.key < seen.idxOf q.key := by
  refine pairwise_toEdge_of_pairwise ?_
  rw [(represents_ofSightings seen).pairs_eq, counted, List.pairwise_map]
  exact pairwise_idxOf_eraseDups seen

end Evidence

end LockOrder
