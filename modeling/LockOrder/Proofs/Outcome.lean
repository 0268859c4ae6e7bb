import Mathlib.Data.List.Forall2

/-!
# Computations that may fail

A computation that goes through a list stops at the first failure. It succeeds exactly when each
of its steps does.

## Main results

* `bind_eq_ok_iff`, `bind_eq_error_iff` — when a computation in two steps succeeds or fails
* `forM_eq_ok_iff`, `exists_of_forM_eq_error` — when a check of every element of a list succeeds or
  fails
* `forM_eq_of_forall₂` — checks of two lists that do the same
* `mapM_eq_ok_iff` — when a computation on every element of a list succeeds
* `foldlM_eq_map_mapM` — a loop that collects results
* `foldlM_eq_ok` — a loop whose steps succeed
-/

namespace LockOrder.Outcome

variable {ε α β σ : Type}

/-- Two steps succeed when the first does and the second does on its result. -/
theorem bind_eq_ok_iff {x : Except ε α} {f : α → Except ε β} {b : β} :
    (x >>= f) = .ok b ↔ ∃ a, x = .ok a ∧ f a = .ok b := by
  cases x with
  | error e => simp [bind, Except.bind]
  | ok a => simp [bind, Except.bind]

/-- Two steps fail when one of them does. -/
theorem bind_eq_error_iff {x : Except ε α} {f : α → Except ε β} {e : ε} :
    (x >>= f) = .error e ↔ x = .error e ∨ ∃ a, x = .ok a ∧ f a = .error e := by
  cases x with
  | error e => simp [bind, Except.bind]
  | ok a => simp [bind, Except.bind]

theorem mapError_eq_error_iff {ε' : Type} {x : Except ε α} {f : ε → ε'} {e' : ε'} :
    x.mapError f = .error e' ↔ ∃ e, x = .error e ∧ f e = e' := by
  cases x with
  | error e => simp [Except.mapError]
  | ok a => simp [Except.mapError]

theorem mapError_eq_ok_iff {ε' : Type} {x : Except ε α} {f : ε → ε'} {a : α} :
    x.mapError f = .ok a ↔ x = .ok a := by
  cases x with
  | error e => simp [Except.mapError]
  | ok a => simp [Except.mapError]

theorem mapError_bind {ε' : Type} (x : Except ε α) (f : α → Except ε β) (h : ε → ε') :
    (x >>= f).mapError h = x.mapError h >>= fun a => (f a).mapError h := by
  cases x <;> rfl

/-- A check and what follows it succeed when both do. -/
theorem check_bind_eq_ok_iff {x : Except ε Unit} {y : Except ε β} {b : β} :
    (x >>= fun _ => y) = .ok b ↔ x = .ok () ∧ y = .ok b := by
  rw [bind_eq_ok_iff]
  constructor
  · rintro ⟨_, hx, hy⟩
    exact ⟨hx, hy⟩
  · rintro ⟨hx, hy⟩
    exact ⟨(), hx, hy⟩

/-- A check of every element succeeds when it does on each. -/
theorem forM_eq_ok_iff {xs : List α} {f : α → Except ε Unit} :
    xs.forM f = .ok () ↔ ∀ x ∈ xs, f x = .ok () := by
  induction xs with
  | nil => simp [pure, Except.pure]
  | cons x xs ih =>
    change (f x >>= fun _ => xs.forM f) = _ ↔ _
    rw [check_bind_eq_ok_iff, List.forall_mem_cons, ← ih]

/-- A check of every element fails as it does on one of them. -/
theorem exists_of_forM_eq_error {xs : List α} {f : α → Except ε Unit} {e : ε}
    (h : xs.forM f = .error e) : ∃ x ∈ xs, f x = .error e := by
  induction xs with
  | nil => cases h
  | cons x xs ih =>
    rcases bind_eq_error_iff.mp h with hx | ⟨_, _, hrest⟩
    · exact ⟨x, List.mem_cons_self, hx⟩
    · obtain ⟨y, hy, herror⟩ := ih hrest
      exact ⟨y, List.mem_cons_of_mem x hy, herror⟩

/-- Checks that agree element by element agree on the lists. -/
theorem forM_eq_of_forall₂ {xs : List α} {ys : List β} {f : α → Except ε Unit}
    {g : β → Except ε Unit} (h : List.Forall₂ (fun x y => f x = g y) xs ys) :
    xs.forM f = ys.forM g := by
  induction h with
  | nil => rfl
  | @cons x y xs ys hxy _ ih =>
    change (f x >>= fun _ => xs.forM f) = (g y >>= fun _ => ys.forM g)
    rw [hxy, ih]

theorem forM_flatMap (xs : List α) (f : α → List β) (g : β → Except ε Unit) :
    (xs.flatMap f).forM g = xs.forM fun x => (f x).forM g := by
  induction xs with
  | nil => rfl
  | cons x xs ih =>
    change _ = (f x).forM g >>= fun _ => xs.forM fun x => (f x).forM g
    rw [List.flatMap_cons, ← ih]
    exact List.forM_append

theorem mapError_forM {ε' : Type} (xs : List α) (f : α → Except ε Unit) (h : ε → ε') :
    (xs.forM f).mapError h = xs.forM fun x => (f x).mapError h := by
  induction xs with
  | nil => rfl
  | cons x xs ih =>
    change (f x >>= fun _ => xs.forM f).mapError h = _
    rw [mapError_bind, ih]
    rfl

/-- A computation on every element succeeds when it does on each, and the results are in order. -/
theorem mapM_eq_ok_iff {xs : List α} {f : α → Except ε β} {ys : List β} :
    xs.mapM f = .ok ys ↔ List.Forall₂ (fun x y => f x = .ok y) xs ys := by
  induction xs generalizing ys with
  | nil => simp [pure, Except.pure, eq_comm]
  | cons x xs ih =>
    simp only [List.mapM_cons, bind_eq_ok_iff, ih, List.forall₂_cons_left_iff]
    constructor
    · rintro ⟨y, hy, ys, hys, heq⟩
      obtain rfl := Except.ok.inj heq
      exact ⟨y, ys, hy, hys, rfl⟩
    · rintro ⟨y, ys, hy, hys, rfl⟩
      exact ⟨y, hy, ys, hys, rfl⟩

/-- A computation has one result at most. -/
theorem rightUnique_ok (f : α → Except ε β) : Relator.RightUnique fun x y => f x = .ok y :=
  fun _ _ _ hy hz => Except.ok.inj (hy.symm.trans hz)

theorem exists_left_of_forall₂ {r : α → β → Prop} {xs : List α} {ys : List β} {y : β}
    (h : List.Forall₂ r xs ys) (hy : y ∈ ys) : ∃ x ∈ xs, r x y := by
  induction h with
  | nil => cases hy
  | @cons x y' xs ys hxy _ ih =>
    rcases List.mem_cons.mp hy with rfl | hy
    · exact ⟨x, List.mem_cons_self, hxy⟩
    · obtain ⟨x', hx', hr⟩ := ih hy
      exact ⟨x', List.mem_cons_of_mem x hx', hr⟩

theorem exists_right_of_forall₂ {r : α → β → Prop} {xs : List α} {ys : List β} {x : α}
    (h : List.Forall₂ r xs ys) (hx : x ∈ xs) : ∃ y ∈ ys, r x y :=
  exists_left_of_forall₂ h.flip hx

/-- A computation that succeeds on each element succeeds on the list. -/
theorem exists_mapM_eq_ok {xs : List α} {f : α → Except ε β} (h : ∀ x ∈ xs, ∃ y, f x = .ok y) :
    ∃ ys, xs.mapM f = .ok ys := by
  induction xs with
  | nil => exact ⟨[], rfl⟩
  | cons x xs ih =>
    obtain ⟨y, hy⟩ := h x List.mem_cons_self
    obtain ⟨ys, hys⟩ := ih fun x' hx' => h x' (List.mem_cons_of_mem x hx')
    exact ⟨y :: ys, by rw [List.mapM_cons, hy, hys]; rfl⟩

/-- Computations that agree element by element agree on the lists. -/
theorem mapM_eq_of_forall₂ {γ : Type} {xs : List α} {ys : List γ} {f : α → Except ε β}
    {g : γ → Except ε β} (h : List.Forall₂ (fun x y => f x = g y) xs ys) :
    xs.mapM f = ys.mapM g := by
  induction h with
  | nil => rfl
  | cons hxy _ ih => rw [List.mapM_cons, List.mapM_cons, hxy, ih]

theorem mapM_congr {xs : List α} {f g : α → Except ε β} (h : ∀ x ∈ xs, f x = g x) :
    xs.mapM f = xs.mapM g :=
  mapM_eq_of_forall₂ (List.forall₂_same.mpr h)

/-- A computation with known results has the list of them for its result. -/
theorem mapM_eq_ok_map {xs : List α} {f : α → Except ε β} {g : α → β}
    (h : ∀ x ∈ xs, f x = .ok (g x)) : xs.mapM f = .ok (xs.map g) := by
  rw [mapM_eq_ok_iff, List.forall₂_map_right_iff, List.forall₂_same]
  exact h

/-- A loop whose state depends on the elements and the results so far computes the results, and
ends in the state that depends on all of them. -/
theorem foldlM_eq_map_mapM {step : σ → α → Except ε σ} {f : α → Except ε β}
    (state : List α → List β → σ)
    (h : ∀ xs ys x, xs.length = ys.length →
      step (state xs ys) x = (f x).map fun y => state (xs ++ [x]) (ys ++ [y])) (xs : List α) :
    xs.foldlM step (state [] []) = (xs.mapM f).map fun ys => state xs ys := by
  -- the induction is on what is still to do, after anything that was done
  suffices hrest : ∀ done made, done.length = made.length → xs.foldlM step (state done made) =
      (xs.mapM f).map fun ys => state (done ++ xs) (made ++ ys) from hrest [] [] rfl
  induction xs with
  | nil => simp [pure, Except.pure, Except.map]
  | cons x xs ih =>
    intro done made hlength
    rw [List.foldlM_cons, List.mapM_cons, h done made x hlength]
    cases f x with
    | error e => rfl
    | ok y =>
      change xs.foldlM step (state (done ++ [x]) (made ++ [y])) = _
      rw [ih _ _ (by simp [hlength])]
      cases xs.mapM f with
      | error e => rfl
      | ok ys => simp [Except.map, bind, Except.bind, pure, Except.pure]

/-- A loop succeeds if each of its steps does, in the state that depends on the elements so far. -/
theorem foldlM_eq_ok {step : σ → α → Except ε σ} (state : List α → σ) {xs : List α}
    (h : ∀ done x, done ++ [x] <+: xs → step (state done) x = .ok (state (done ++ [x]))) :
    xs.foldlM step (state []) = .ok (state xs) := by
  suffices hrest : ∀ todo done, done ++ todo = xs →
      todo.foldlM step (state done) = .ok (state xs) from hrest xs [] rfl
  intro todo
  induction todo with
  | nil =>
    intro done hdone
    rw [← hdone, List.append_nil]
    rfl
  | cons x todo ih =>
    intro done hdone
    have hsplit : done ++ [x] ++ todo = xs := by rw [List.append_cons] at hdone; exact hdone
    rw [List.foldlM_cons, h done x ⟨todo, hsplit⟩]
    exact ih (done ++ [x]) hsplit

end LockOrder.Outcome
