import LockOrder.Report.CallGraph
import Mathlib.Data.List.Nodup

/-!
# First occurrences

A drawing numbers things in the order in which they are first seen, and tells them apart by a key.
Of every key the first element is kept, and the keys stand in the order of their first occurrences.
Only which keys are equal matters, so keys may be renamed as long as different ones stay different.

## Main definitions

* `IsFirstSeen` — the first elements of a list by key, in order

## Main results

* `isFirstSeen_firstSeen` — the computed list has the first elements
* `firstSeen_map_of_injOn` — first occurrences of renamed keys
-/

namespace LockOrder

variable {α β γ : Type} [DecidableEq β] [DecidableEq γ] {key : α → β} {seen : List β}
  {xs ys : List α} {x y : α} {k : β}

/-- Of every key of `xs` the list `ys` has the first element, in the order in which the keys are
first seen. -/
structure IsFirstSeen (key : α → β) (xs ys : List α) : Prop where
  /-- The keys are the same. -/
  covers : ∀ k, k ∈ ys.map key ↔ k ∈ xs.map key
  /-- The keys come in the order of their first occurrences; so none of them comes twice. -/
  ordered : (ys.map key).Pairwise fun k k' => (xs.map key).idxOf k < (xs.map key).idxOf k'
  /-- The elements are the first ones with their keys. -/
  first : ∀ y ∈ ys, xs.find? (fun x => key x = key y) = some y

theorem IsFirstSeen.nodup (h : IsFirstSeen key xs ys) : (ys.map key).Nodup := by
  refine h.ordered.imp fun {k k'} hlt heq => ?_
  subst heq
  exact Nat.lt_irrefl _ hlt

theorem IsFirstSeen.mem (h : IsFirstSeen key xs ys) (hy : y ∈ ys) : y ∈ xs :=
  List.mem_of_find?_eq_some (h.first y hy)

/-! ### The computed list -/

/-- The keys that are kept are those that were not seen before. -/
theorem mem_map_firstSeenAfter :
    k ∈ (firstSeenAfter key seen xs).map key ↔ k ∈ xs.map key ∧ k ∉ seen := by
  induction xs generalizing seen with
  | nil => simp [firstSeenAfter]
  | cons a rest ih =>
    rw [firstSeenAfter]
    by_cases ha : key a ∈ seen
    · rw [if_pos ha, ih, List.map_cons, List.mem_cons]
      constructor
      · rintro ⟨hk, hnew⟩
        exact ⟨.inr hk, hnew⟩
      · rintro ⟨rfl | hk, hnew⟩
        · exact absurd ha hnew
        · exact ⟨hk, hnew⟩
    · rw [if_neg ha, List.map_cons, List.map_cons, List.mem_cons, List.mem_cons, ih]
      by_cases hk : k = key a
      · subst hk
        simp [ha]
      · simp [hk]

theorem key_notMem_of_mem_firstSeenAfter (hy : y ∈ firstSeenAfter key seen xs) : key y ∉ seen :=
  (mem_map_firstSeenAfter.mp (List.mem_map_of_mem hy)).2

/-- What is kept is the first element with its key. -/
theorem find?_of_mem_firstSeenAfter (hy : y ∈ firstSeenAfter key seen xs) :
    xs.find? (fun x => key x = key y) = some y := by
  induction xs generalizing seen with
  | nil => cases hy
  | cons a rest ih =>
    rw [firstSeenAfter] at hy
    by_cases ha : key a ∈ seen
    · rw [if_pos ha] at hy
      have hne : key a ≠ key y := fun heq => key_notMem_of_mem_firstSeenAfter hy (heq ▸ ha)
      rw [List.find?_cons_of_neg (by simpa using hne)]
      exact ih hy
    · rw [if_neg ha, List.mem_cons] at hy
      rcases hy with rfl | hy
      · exact List.find?_cons_of_pos (by simp)
      · have hne : key a ≠ key y := fun heq =>
          key_notMem_of_mem_firstSeenAfter hy (heq ▸ List.mem_cons_self)
        rw [List.find?_cons_of_neg (by simpa using hne)]
        exact ih hy

/-- The order of first occurrences stays the same when another key comes before all of them. -/
theorem pairwise_idxOf_cons {ks ks' : List β} (hnew : k ∉ ks)
    (h : ks.Pairwise fun a b => ks'.idxOf a < ks'.idxOf b) :
    ks.Pairwise fun a b => (k :: ks').idxOf a < (k :: ks').idxOf b := by
  refine h.imp_of_mem fun {a b} ha hb hlt => ?_
  have hka : k ≠ a := fun heq => hnew (heq ▸ ha)
  have hkb : k ≠ b := fun heq => hnew (heq ▸ hb)
  rw [List.idxOf_cons_ne _ hka, List.idxOf_cons_ne _ hkb]
  exact Nat.succ_lt_succ hlt

/-- The keys that are kept come in the order of their first occurrences. -/
theorem pairwise_firstSeenAfter (key : α → β) (seen : List β) (xs : List α) :
    ((firstSeenAfter key seen xs).map key).Pairwise fun k k' =>
      (xs.map key).idxOf k < (xs.map key).idxOf k' := by
  induction xs generalizing seen with
  | nil => exact List.Pairwise.nil
  | cons a rest ih =>
    rw [firstSeenAfter]
    by_cases ha : key a ∈ seen
    · rw [if_pos ha]
      exact pairwise_idxOf_cons (fun hmem => (mem_map_firstSeenAfter.mp hmem).2 ha) (ih seen)
    · rw [if_neg ha]
      have hnew : key a ∉ (firstSeenAfter key (key a :: seen) rest).map key := fun hmem =>
        (mem_map_firstSeenAfter.mp hmem).2 List.mem_cons_self
      refine List.pairwise_cons.mpr ⟨fun k hk => ?_, pairwise_idxOf_cons hnew (ih _)⟩
      -- the key of the first element comes first of all
      have hne : key a ≠ k := fun heq => hnew (heq ▸ hk)
      rw [List.map_cons, List.idxOf_cons_self, List.idxOf_cons_ne _ hne]
      exact Nat.succ_pos _

/-- The elements that are kept are the first ones by key, in order. -/
theorem isFirstSeen_firstSeen (key : α → β) (xs : List α) :
    IsFirstSeen key xs (firstSeen key xs) where
  covers k := by simp [firstSeen, mem_map_firstSeenAfter]
  ordered := pairwise_firstSeenAfter key [] xs
  first _ := find?_of_mem_firstSeenAfter

theorem mem_firstSeen_id {ks : List β} : k ∈ firstSeen id ks ↔ k ∈ ks := by
  simpa using (isFirstSeen_firstSeen id ks).covers k

theorem nodup_firstSeen_id (ks : List β) : (firstSeen id ks).Nodup := by
  simpa using (isFirstSeen_firstSeen id ks).nodup

/-! ### Keys in place of elements -/

theorem map_firstSeenAfter (key : α → β) (seen : List β) (xs : List α) :
    (firstSeenAfter key seen xs).map key = firstSeenAfter id seen (xs.map key) := by
  induction xs generalizing seen with
  | nil => rfl
  | cons a rest ih =>
    rw [List.map_cons, firstSeenAfter, firstSeenAfter, id]
    split
    · exact ih seen
    · rw [List.map_cons, ih]

/-- The keys of the first elements are the first keys. -/
theorem map_firstSeen (key : α → β) (xs : List α) :
    (firstSeen key xs).map key = firstSeen id (xs.map key) :=
  map_firstSeenAfter key [] xs

theorem firstSeenAfter_map_of_injOn {f : β → γ} {ks seen : List β}
    (hf : ∀ a ∈ ks ++ seen, ∀ b ∈ ks ++ seen, f a = f b → a = b) :
    firstSeenAfter id (seen.map f) (ks.map f) = (firstSeenAfter id seen ks).map f := by
  induction ks generalizing seen with
  | nil => rfl
  | cons a rest ih =>
    have hmem : f a ∈ seen.map f ↔ a ∈ seen := by
      constructor
      · intro h
        obtain ⟨b, hb, heq⟩ := List.mem_map.mp h
        exact hf b (List.mem_append_right _ hb) a List.mem_cons_self heq ▸ hb
      · exact List.mem_map_of_mem
    rw [List.map_cons, firstSeenAfter, firstSeenAfter, id, id]
    by_cases ha : a ∈ seen
    · rw [if_pos ha, if_pos (hmem.mpr ha)]
      apply ih
      intro b hb c hc
      exact hf b (List.mem_cons_of_mem a hb) c (List.mem_cons_of_mem a hc)
    · rw [if_neg ha, if_neg (mt hmem.mp ha), List.map_cons, ← List.map_cons]
      congr 1
      -- the keys are the same ones, of which one counts as seen now
      have hsub : ∀ b ∈ rest ++ a :: seen, b ∈ a :: rest ++ seen := by
        intro b hb
        simpa [or_left_comm] using hb
      exact ih fun b hb c hc => hf b (hsub b hb) c (hsub c hc)

/-- First occurrences stay first when different keys get different names. -/
theorem firstSeen_map_of_injOn {f : β → γ} {ks : List β}
    (hf : ∀ a ∈ ks, ∀ b ∈ ks, f a = f b → a = b) :
    firstSeen id (ks.map f) = (firstSeen id ks).map f := by
  change firstSeenAfter id (([] : List β).map f) (ks.map f) = _
  apply firstSeenAfter_map_of_injOn
  simpa using hf

end LockOrder
