import LockOrder.Position
import Mathlib.Data.List.Forall2
import Mathlib.Data.List.Perm.Basic

/-!
# Reading and collecting by position

Reading a position gives an element exactly when the position is inside. The last position of a
value is its only one in a list without repetitions. Values collected under a key are the values
with that key, in their order, and all keys together have all values.

## Main definitions

* `LastAt` — where a value stands last

## Main results

* `arrayAt_eq_ok_iff`, `listAt_eq_ok_iff` — when a position can be read
* `lastIndex?_eq_none_iff`, `lastIndex?_eq_some_iff` — where a value is found
* `getElem?_buckets` — what is collected under a key
* `buckets_flatMap` — lists that are collected again under their positions
* `flatMap_filter_perm` — sorting into places rearranges a list
-/

namespace LockOrder

variable {α : Type}

@[simp]
theorem arrayAt_eq_ok_iff {xs : Array α} {i : Nat} {x : α} :
    arrayAt xs i = .ok x ↔ xs[i]? = some x := by
  unfold arrayAt
  cases xs[i]? <;> simp

theorem arrayAt_of_lt {xs : Array α} {i : Nat} (h : i < xs.size) : arrayAt xs i = .ok xs[i] :=
  arrayAt_eq_ok_iff.mpr (Array.getElem?_eq_getElem h)

@[simp]
theorem listAt_eq_ok_iff {xs : List α} {i : Nat} {x : α} :
    listAt xs i = .ok x ↔ xs[i]? = some x := by
  unfold listAt
  cases xs[i]? <;> simp

/-- Lists are related element by element if they are at every position. -/
theorem forall₂_of_getElem? {β : Type} {r : α → β → Prop} {xs : List α} {ys : List β}
    (hlength : xs.length = ys.length)
    (h : ∀ (i : Nat) x y, xs[i]? = some x → ys[i]? = some y → r x y) : List.Forall₂ r xs ys := by
  rw [List.forall₂_iff_get]
  exact ⟨hlength, fun i hx hy =>
    h i _ _ (List.getElem?_eq_getElem hx) (List.getElem?_eq_getElem hy)⟩

theorem exists_getElem?_of_forall₂ {β : Type} {r : α → β → Prop} {xs : List α} {ys : List β}
    (h : List.Forall₂ r xs ys) {i : Nat} {x : α} (hx : xs[i]? = some x) :
    ∃ y, ys[i]? = some y ∧ r x y := by
  obtain ⟨hi, rfl⟩ := List.getElem?_eq_some_iff.mp hx
  have hi' : i < ys.length := h.length_eq ▸ hi
  exact ⟨ys[i], List.getElem?_eq_getElem hi', h.get hi hi'⟩

/-- A relation between positions and elements holds of the list of all positions. -/
theorem forall₂_range {r : Nat → α → Prop} {xs : List α}
    (h : ∀ (i : Nat) x, xs[i]? = some x → r i x) : List.Forall₂ r (List.range xs.length) xs := by
  refine forall₂_of_getElem? List.length_range fun i j x hj hx => ?_
  obtain ⟨hi, rfl⟩ := List.getElem?_eq_some_iff.mp hj
  rw [List.getElem_range]
  exact h i x hx

theorem lastIndex?_eq_none_iff [DecidableEq α] {a : α} {xs : List α} :
    lastIndex? a xs = none ↔ a ∉ xs := by
  induction xs with
  | nil => simp [lastIndex?]
  | cons x xs ih =>
    rw [lastIndex?, List.mem_cons, not_or, ← ih]
    cases lastIndex? a xs <;> simp [eq_comm]

/-- A value stands at a position of a list and nowhere behind it. -/
def LastAt (xs : List α) (a : α) (i : Nat) : Prop :=
  xs[i]? = some a ∧ ∀ j, i < j → xs[j]? ≠ some a

theorem LastAt.unique {xs : List α} {a : α} {i j : Nat} (hi : LastAt xs a i)
    (hj : LastAt xs a j) : i = j := by
  rcases Nat.lt_trichotomy i j with hlt | heq | hlt
  · exact absurd hj.1 (hi.2 j hlt)
  · exact heq
  · exact absurd hi.1 (hj.2 i hlt)

theorem lastAt_cons_succ {xs : List α} {a x : α} {i : Nat} :
    LastAt (x :: xs) a (i + 1) ↔ LastAt xs a i := by
  refine and_congr Iff.rfl ⟨fun h j hj => ?_, fun h j hj => ?_⟩
  · exact h (j + 1) (Nat.succ_lt_succ hj)
  · obtain ⟨j, rfl⟩ := Nat.exists_eq_add_one_of_ne_zero (Nat.ne_zero_of_lt hj)
    exact h j (Nat.lt_of_succ_lt_succ hj)

theorem lastAt_of_lastIndex? [DecidableEq α] {a : α} {xs : List α} {i : Nat}
    (h : lastIndex? a xs = some i) : LastAt xs a i := by
  induction xs generalizing i with
  | nil => cases h
  | cons x xs ih =>
    rw [lastIndex?] at h
    cases hlast : lastIndex? a xs with
    | some j =>
      rw [hlast] at h
      obtain rfl := Option.some.inj h
      exact lastAt_cons_succ.mpr (ih hlast)
    | none =>
      rw [hlast] at h
      obtain ⟨rfl, rfl⟩ : x = a ∧ 0 = i := by simpa using h
      refine ⟨rfl, fun j hj hmem => ?_⟩
      obtain ⟨j, rfl⟩ := Nat.exists_eq_add_one_of_ne_zero (Nat.ne_zero_of_lt hj)
      exact lastIndex?_eq_none_iff.mp hlast (List.mem_of_getElem? (i := j) hmem)

theorem getElem?_of_lastIndex? [DecidableEq α] {a : α} {xs : List α} {i : Nat}
    (h : lastIndex? a xs = some i) : xs[i]? = some a :=
  (lastAt_of_lastIndex? h).1

/-- The last position of a value is the one with no other behind it. -/
theorem lastIndex?_eq_some_iff [DecidableEq α] {a : α} {xs : List α} {i : Nat} :
    lastIndex? a xs = some i ↔ LastAt xs a i := by
  constructor
  · exact lastAt_of_lastIndex?
  · intro h
    cases hlast : lastIndex? a xs with
    | none => exact absurd (List.mem_of_getElem? h.1) (lastIndex?_eq_none_iff.mp hlast)
    | some j => rw [h.unique (lastAt_of_lastIndex? hlast)]

instance decidableLastAt [DecidableEq α] (xs : List α) (a : α) (i : Nat) :
    Decidable (LastAt xs a i) :=
  decidable_of_iff (lastIndex? a xs = some i) lastIndex?_eq_some_iff

theorem lastIndex?_concat [DecidableEq α] (a x : α) (xs : List α) :
    lastIndex? a (xs ++ [x]) = if x = a then some xs.length else lastIndex? a xs := by
  induction xs with
  | nil => rfl
  | cons y ys ih =>
    rw [List.cons_append, lastIndex?, ih, lastIndex?]
    by_cases hx : x = a <;> simp [hx]

/-- The last position of a value that occurs once is the position of the value. -/
theorem lastIndex?_eq_some_iff_of_nodup [DecidableEq α] {a : α} {xs : List α} {i : Nat}
    (hxs : xs.Nodup) : lastIndex? a xs = some i ↔ xs[i]? = some a := by
  rw [lastIndex?_eq_some_iff]
  refine ⟨fun h => h.1, fun h => ⟨h, fun j hlt hj => ?_⟩⟩
  have hi : i < xs.length := (List.getElem?_eq_some_iff.mp h).1
  exact Nat.ne_of_lt hlt ((List.getElem?_inj hi hxs).mp (h.trans hj.symm))

/-- To change an element that is there is to write at its position. -/
theorem modify_eq_setIfInBounds {xs : Array α} {i : Nat} {x : α} (h : xs[i]? = some x)
    (f : α → α) : xs.modify i f = xs.setIfInBounds i (f x) := by
  have hi : i < xs.size := (Array.getElem?_eq_some_iff.mp h).1
  refine Array.ext_getElem? fun j => ?_
  rw [Array.getElem?_modify, Array.getElem?_setIfInBounds]
  by_cases hij : i = j
  · rw [if_pos hij, if_pos hij, if_pos hi, ← hij, h, Option.map_some]
  · rw [if_neg hij, if_neg hij]

@[simp]
theorem size_buckets (size : Nat) (pairs : List (Nat × α)) : (buckets size pairs).size = size := by
  induction pairs with
  | nil => simp [buckets]
  | cons pair pairs ih => simpa [buckets] using ih

/-- Under a key stand the values with that key, in their order. -/
theorem getElem?_buckets (size : Nat) (pairs : List (Nat × α)) (k : Nat) :
    (buckets size pairs)[k]? =
      if k < size then some ((pairs.filter fun pair => pair.1 = k).map Prod.snd) else none := by
  induction pairs with
  | nil => simp [buckets, Array.getElem?_replicate]
  | cons pair pairs ih =>
    have hstep : buckets size (pair :: pairs) =
        (buckets size pairs).modify pair.1 (pair.2 :: ·) := rfl
    rw [hstep, Array.getElem?_modify, ih]
    by_cases hk : pair.1 = k
    · by_cases hlt : k < size <;> simp [hk, hlt]
    · simp [hk]

/-- A value that comes last under its key is put last there. -/
theorem buckets_concat {size k : Nat} (hk : k < size) (pairs : List (Nat × α)) (a : α) :
    ∃ row, (buckets size pairs)[k]? = some row ∧
      buckets size (pairs ++ [(k, a)]) = (buckets size pairs).setIfInBounds k (row ++ [a]) := by
  refine ⟨_, by rw [getElem?_buckets, if_pos hk], Array.ext_getElem? fun i => ?_⟩
  rw [getElem?_buckets, Array.getElem?_setIfInBounds, getElem?_buckets, size_buckets]
  -- only the list under the key changes
  by_cases hi : k = i
  · subst hi
    simp [hk]
  · simp [hi]

/-! ### Sorting into places -/

/-- Lists that match at each place match as a whole. -/
theorem forall₂_flatMap {β γ : Type} {r : β → γ → Prop} {f : α → List β} {f' : α → List γ}
    {places : List α} (h : ∀ k ∈ places, List.Forall₂ r (f k) (f' k)) :
    List.Forall₂ r (places.flatMap f) (places.flatMap f') := by
  induction places with
  | nil => exact .nil
  | cons k places ih =>
    obtain ⟨hk, hplaces⟩ := List.forall_mem_cons.mp h
    rw [List.flatMap_cons, List.flatMap_cons]
    exact List.rel_append hk (ih hplaces)

/-- Lists of which all but one are empty join to that one. -/
theorem flatMap_eq_of_nodup {β : Type} {f : α → List β} {xs : List α} {x : α} (hxs : xs.Nodup)
    (hx : x ∈ xs) (hother : ∀ y ∈ xs, y ≠ x → f y = []) : xs.flatMap f = f x := by
  obtain ⟨below, above, rfl⟩ := List.append_of_mem hx
  obtain ⟨_, habove, hdisjoint⟩ := List.nodup_append.mp hxs
  have hbelow : below.flatMap f = [] := List.flatMap_eq_nil_iff.mpr fun y hy =>
    hother y (List.mem_append_left _ hy) (hdisjoint y hy x List.mem_cons_self)
  have habove : above.flatMap f = [] := List.flatMap_eq_nil_iff.mpr fun y hy =>
    hother y (List.mem_append_right _ (List.mem_cons_of_mem x hy)) fun heq =>
      (List.nodup_cons.mp habove).1 (heq ▸ hy)
  rw [List.flatMap_append, List.flatMap_cons, hbelow, habove, List.nil_append, List.append_nil]

/-- Lists that are joined, with the position of each, are collected again. -/
theorem buckets_flatMap {β : Type} [DecidableEq α] {xs : List α} (hxs : xs.Nodup)
    (f : α → List β) :
    buckets xs.length (xs.flatMap fun x => (f x).map fun b => (xs.idxOf x, b)) =
      (xs.map f).toArray := by
  refine Array.ext_getElem? fun i => ?_
  rw [getElem?_buckets, List.getElem?_toArray, List.getElem?_map]
  split
  · next hi =>
    rw [List.getElem?_eq_getElem hi, Option.map_some, List.filter_flatMap, List.map_flatMap,
      flatMap_eq_of_nodup hxs (List.getElem_mem hi)]
    · simp [List.filter_map, Function.comp_def, hxs.idxOf_getElem]
    · intro x hx hne
      -- the position of another element is another one
      have hidx : xs.idxOf x ≠ i := by
        rintro rfl
        exact hne (List.getElem_idxOf hi).symm
      simp [List.filter_map, Function.comp_def, hidx]
  · next hi => rw [List.getElem?_eq_none (Nat.not_lt.mp hi), Option.map_none]

/-- Sorting the elements of a list into places loses none and doubles none. -/
theorem flatMap_filter_perm {κ : Type} [DecidableEq κ] {place : α → κ} {places : List κ}
    {xs : List α} (hplaces : places.Nodup) (h : ∀ x ∈ xs, place x ∈ places) :
    (places.flatMap fun k => xs.filter fun x => place x = k).Perm xs := by
  induction xs with
  | nil => simp
  | cons x xs ih =>
    obtain ⟨hx, hxs⟩ := List.forall_mem_cons.mp h
    have hsplit : (fun k => (x :: xs).filter fun y => place y = k) = fun k =>
        (if place x = k then [x] else []) ++ xs.filter fun y => place y = k := by
      funext k
      by_cases hk : place x = k <;> simp [hk]
    -- the place of the first element is the only one that has it
    have hfirst : (places.flatMap fun k => if place x = k then [x] else []) = [x] := by
      rw [flatMap_eq_of_nodup hplaces hx]
      · exact if_pos rfl
      · exact fun k _ hk => if_neg (Ne.symm hk)
    rw [hsplit]
    refine (List.flatMap_append_perm _ _ _).symm.trans ?_
    rw [hfirst]
    exact (ih hxs).cons x

end LockOrder
