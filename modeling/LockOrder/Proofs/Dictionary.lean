import LockOrder.Dictionary
import LockOrder.Proofs.Position
import Mathlib.Data.List.Induction
import Mathlib.Data.List.Nodup

/-!
# Looking up in dictionaries

A dictionary is a list of entries, and only the first entry of a key counts. Inserting keeps the
keys distinct, and then the entries are just the keys with their values.

## Main definitions

* `Dictionary.Distinct` — no key has two entries
* `Dictionary.positions` — where the values of a list stand

## Main results

* `Dictionary.get?_insert`, `Dictionary.get?_erase` — looking up after a change
* `Dictionary.insert_insert`, `Dictionary.insert_eq_self` — changes that undo others
* `Dictionary.get?_positions` — the last position of a value counts
* `Dictionary.mem_entries_iff` — the entries of a dictionary with distinct keys
-/

namespace LockOrder.Dictionary

variable {κ α : Type} [DecidableEq κ] {d : Dictionary κ α} {k k' : κ} {a : α}

@[simp]
theorem get?_empty : (empty : Dictionary κ α).get? k = none := rfl

theorem lookup_store (k k' : κ) (a : α) (entries : List (κ × α)) :
    lookup k' (store k a entries) = if k = k' then some a else lookup k' entries := by
  induction entries with
  | nil => simp [store, lookup]
  | cons entry rest ih =>
    obtain ⟨j, b⟩ := entry
    by_cases hj : j = k
    · subst hj
      by_cases hk : j = k' <;> simp [store, lookup, hk]
    · rw [store, if_neg hj, lookup, lookup, ih]
      by_cases hk : k = k'
      · subst hk
        simp [hj]
      · simp [hk]

@[simp]
theorem get?_insert : (d.insert k a).get? k' = if k = k' then some a else d.get? k' :=
  lookup_store k k' a d.entries

@[simp]
theorem get?_erase : (d.erase k).get? k' = if k = k' then none else d.get? k' := by
  obtain ⟨entries⟩ := d
  change lookup k' (entries.filter fun entry => entry.1 ≠ k) = ite _ _ (lookup k' entries)
  induction entries with
  | nil => simp [lookup]
  | cons entry rest ih =>
    obtain ⟨j, b⟩ := entry
    by_cases hj : j = k
    · subst hj
      rw [List.filter_cons_of_neg (by simp), ih, lookup]
      by_cases hk : j = k' <;> simp [hk]
    · rw [List.filter_cons_of_pos (by simpa using hj), lookup, lookup, ih]
      by_cases hk : k = k'
      · subst hk
        simp [hj]
      · simp [hk]

theorem store_store (k : κ) (a b : α) (entries : List (κ × α)) :
    store k b (store k a entries) = store k b entries := by
  induction entries with
  | nil => simp [store]
  | cons entry rest ih =>
    obtain ⟨j, c⟩ := entry
    by_cases hj : j = k <;> simp [store, hj, ih]

/-- Of two values that a key is given, the later one counts. -/
@[simp]
theorem insert_insert (d : Dictionary κ α) (k : κ) (a b : α) :
    (d.insert k a).insert k b = d.insert k b :=
  congrArg mk (store_store k a b d.entries)

theorem store_of_lookup {entries : List (κ × α)} (h : lookup k entries = some a) :
    store k a entries = entries := by
  induction entries with
  | nil => simp [lookup] at h
  | cons entry rest ih =>
    obtain ⟨j, b⟩ := entry
    by_cases hj : j = k
    · obtain rfl : b = a := by simpa [lookup, hj] using h
      simp [store, hj]
    · rw [lookup, if_neg hj] at h
      rw [store, if_neg hj, ih h]

/-- Giving a key the value that it has changes nothing. -/
theorem insert_eq_self (h : d.get? k = some a) : d.insert k a = d :=
  congrArg mk (store_of_lookup h)

/-! ### Positions in a list -/

/-- The position of each value of a list, put in from the first to the last, so that a value that
comes again has the last one. -/
def positions (xs : List κ) : Dictionary κ Nat :=
  xs.zipIdx.foldl (fun d entry => d.insert entry.1 entry.2) empty

theorem positions_concat (xs : List κ) (x : κ) :
    positions (xs ++ [x]) = (positions xs).insert x xs.length := by
  rw [positions, positions, List.zipIdx_append, List.foldl_append, Nat.zero_add]
  rfl

theorem get?_positions (xs : List κ) (k : κ) : (positions xs).get? k = lastIndex? k xs := by
  induction xs using List.reverseRecOn with
  | nil => rfl
  | append_singleton xs x ih => rw [positions_concat, get?_insert, lastIndex?_concat, ih]

/-! ### Distinct keys -/

/-- No key has two entries. -/
def Distinct (d : Dictionary κ α) : Prop := (d.entries.map Prod.fst).Nodup

omit [DecidableEq κ] in
theorem distinct_empty : (empty : Dictionary κ α).Distinct := List.nodup_nil

theorem map_fst_store (k : κ) (a : α) (entries : List (κ × α)) :
    (store k a entries).map Prod.fst =
      if k ∈ entries.map Prod.fst then entries.map Prod.fst else entries.map Prod.fst ++ [k] := by
  induction entries with
  | nil => simp [store]
  | cons entry rest ih =>
    obtain ⟨j, b⟩ := entry
    by_cases hj : j = k
    · simp [store, hj]
    · rw [store, if_neg hj, List.map_cons, ih]
      have hcons : k ∈ List.map Prod.fst ((j, b) :: rest) ↔ k ∈ rest.map Prod.fst := by
        simp [Ne.symm hj]
      by_cases hmem : k ∈ rest.map Prod.fst
      · rw [if_pos hmem, if_pos (hcons.mpr hmem), List.map_cons]
      · rw [if_neg hmem, if_neg (mt hcons.mp hmem), List.map_cons, List.cons_append]

theorem Distinct.insert (h : d.Distinct) (k : κ) (a : α) : (d.insert k a).Distinct := by
  rw [Distinct, Dictionary.insert, map_fst_store]
  split
  · exact h
  · next hk =>
    exact h.append (List.nodup_singleton k) (by simpa using hk)

theorem Distinct.erase (h : d.Distinct) (k : κ) : (d.erase k).Distinct :=
  h.sublist (List.filter_sublist.map Prod.fst)

/-- With distinct keys, the entries are the keys with their values. -/
theorem mem_entries_iff (h : d.Distinct) : (k, a) ∈ d.entries ↔ d.get? k = some a := by
  obtain ⟨entries⟩ := d
  change (entries.map Prod.fst).Nodup at h
  change (k, a) ∈ entries ↔ lookup k entries = some a
  induction entries with
  | nil => simp [lookup]
  | cons entry rest ih =>
    obtain ⟨j, b⟩ := entry
    rw [List.map_cons, List.nodup_cons] at h
    rw [lookup, List.mem_cons, ih h.2]
    by_cases hj : j = k
    · subst hj
      -- the key does not occur again, so only the first entry counts
      have hrest : lookup j rest ≠ some a := fun hsome =>
        h.1 (List.mem_map.mpr ⟨(j, a), (ih h.2).mpr hsome, rfl⟩)
      simp [hrest, eq_comm]
    · simp [hj, Ne.symm hj]

end LockOrder.Dictionary
