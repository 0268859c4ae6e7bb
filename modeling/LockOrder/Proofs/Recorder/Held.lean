import LockOrder.Proofs.Recorder.Replay
import Mathlib.Algebra.BigOperators.Group.Finset.Basic
import Mathlib.Data.List.Perm.Basic

/-!
# Held locks as counters

A release puts the last entry of a thread into the place of the one that goes, so the entries of a
thread stand in no particular order. Up to their order, a call that takes a lock adds one entry and
a release takes the first entry for its lock away. How often a thread holds a lock is therefore a
counter: it goes up when the thread takes the lock, and down when the thread gives it back, unless
it is zero. A lock that is never held twice by a thread has one entry there, made when the thread
took the lock for the last time.

## Main definitions

* `Call.takes?` — the thread and the lock of a call that takes a lock
* `Call.count`, `Ledger.holdCount` — the counter of a thread for a lock
* `Recorder.taken?` — the entry that a call adds

## Main results

* `Recorder.swapRemove_perm` — removing by putting the last in place, up to order
* `Recorder.count_locks_perform` — a call counts
* `Recorder.exists_latest_taking` — the entry of a lock that is held once
* `Recorder.held_locks_counted` — held locks are counters
-/

namespace LockOrder

/-- The thread and the lock of a call that takes a lock. -/
def Call.takes? : Call → Option (Nat × Nat)
  | .acquire thread lock _ | .acquireLabeled thread lock _ _ _ => some (thread, lock)
  | .name .. | .mayAcquire .. | .release .. | .intern .. => none

/-- What a call does to the counter of a thread for a lock. -/
def Call.count (thread lock : Nat) (n : Nat) : Call → Nat
  | .acquire t k _ | .acquireLabeled t k _ _ _ => if t = thread ∧ k = lock then n + 1 else n
  | .release t k => if t = thread ∧ k = lock then n - 1 else n
  | .name .. | .mayAcquire .. | .intern .. => n

/-- How often a thread holds a lock after a run, by counting calls. -/
def Ledger.holdCount (thread lock : Nat) (calls : List Call) : Nat :=
  calls.foldl (Call.count thread lock) 0

theorem Ledger.holdCount_concat (thread lock : Nat) (calls : List Call) (call : Call) :
    holdCount thread lock (calls ++ [call]) =
      call.count thread lock (holdCount thread lock calls) := by
  rw [holdCount, List.foldl_append]
  rfl

namespace Recorder

variable {r : Recorder} {call : Call} {calls : List Call} {thread lock : Nat} {h : Held}

/-! ### Entries that come and go -/

/-- Removing an element by putting the last one in its place is removing it, up to order. -/
theorem swapRemove_perm {α : Type} {xs : List α} {i : Nat} (hi : i < xs.length) :
    (swapRemove xs i).Perm (xs.eraseIdx i) := by
  rcases List.eq_nil_or_concat xs with rfl | ⟨ys, last, rfl⟩
  · simp at hi
  · rw [List.concat_eq_append] at hi ⊢
    have hswap : swapRemove (ys ++ [last]) i = ((ys ++ [last]).set i last).dropLast := by
      simp [swapRemove]
    rw [hswap]
    by_cases hlt : i < ys.length
    · rw [List.set_append_left _ _ hlt, List.dropLast_concat, List.eraseIdx_append_of_lt_length hlt]
      exact (List.set_perm_cons_eraseIdx hlt last).trans (List.perm_append_singleton _ _).symm
    · -- the last element itself goes
      obtain rfl : i = ys.length := by
        rw [List.length_append, List.length_singleton] at hi
        omega
      rw [List.eraseIdx_append_of_length_le (Nat.le_refl _)]
      simp

@[simp]
theorem threads_classForLabel (r : Recorder) (label : String) :
    (r.classForLabel label).2.threads = r.threads := by
  unfold classForLabel
  cases r.classOfLabel.get? label <;> rfl

@[simp]
theorem threads_classForLock (r : Recorder) (thread lock : Nat) (stack : Stack) :
    (r.classForLock thread lock stack).2.1.threads = r.threads := by
  unfold classForLock
  cases r.classOfLock.get? lock with
  | some c => rfl
  | none => cases r.names.get? lock <;> exact threads_classForLabel _ _

theorem heldBy_congr {r' : Recorder} (h : r'.threads = r.threads) (thread : Nat) :
    r'.heldBy thread = r.heldBy thread := by
  rw [heldBy, h, heldBy]

/-- The entry that a call adds to those of its thread. -/
def taken? (r : Recorder) : Call → Option (Nat × Held)
  | .acquire thread lock stack =>
    some (thread, ⟨lock, (r.classForLock thread lock stack).1, 0, stack⟩)
  | .acquireLabeled thread lock stack label rank =>
    some (thread, ⟨lock, (r.classForLabel label).1, rank, stack⟩)
  | .name .. | .mayAcquire .. | .release .. | .intern .. => none

/-- A call that takes a lock adds an entry at the end. -/
theorem heldBy_take (r : Recorder) (t : Nat) (new : Held) (thread : Nat) :
    (r.take t new).heldBy thread =
      if t = thread then r.heldBy thread ++ [new] else r.heldBy thread := by
  rw [take, heldBy_insert { r with classes := noteEdges r.classes (r.heldBy t) new }]
  by_cases ht : t = thread
  · rw [if_pos ht, if_pos ht, ht]
  · rw [if_neg ht, if_neg ht]
    rfl

theorem heldBy_perform_of_taken? {t : Nat} {new : Held} (hnew : r.taken? call = some (t, new))
    (thread : Nat) : (r.perform call).1.heldBy thread =
      if t = thread then r.heldBy thread ++ [new] else r.heldBy thread := by
  cases call with
  | acquire _ lock stack =>
    cases hnew
    rw [perform, acquire, heldBy_take, heldBy_congr (threads_classForLock ..)]
  | acquireLabeled _ lock stack label rank =>
    cases hnew
    rw [perform, acquireLabeled, heldBy_take, heldBy_congr (threads_classForLabel ..)]
  | _ => cases hnew

/-- A release takes the first entry for its lock away, up to order. -/
theorem heldBy_release_perm (r : Recorder) (t lock thread : Nat) :
    ((r.release t lock).1.heldBy thread).Perm
      (if t = thread then (r.heldBy thread).eraseP fun h => h.lock = lock
      else r.heldBy thread) := by
  cases hfind : (r.heldBy t).findIdx? fun h => h.lock = lock with
  | none =>
    obtain ⟨event, hrelease, _⟩ := release_of_findIdx?_eq_none hfind
    rw [hrelease]
    split
    · next ht =>
      subst ht
      rw [List.eraseP_eq_eraseIdx, hfind]
    · rfl
  | some i =>
    rw [release_of_findIdx?_eq_some hfind, heldBy_insert]
    split
    · next ht =>
      subst ht
      rw [List.eraseP_eq_eraseIdx, hfind]
      exact swapRemove_perm (List.findIdx?_eq_some_iff_getElem.mp hfind).1
    · rfl

theorem mayAcquire_of_eq_nil (hheld : r.heldBy thread = []) (lock : Nat) (stack : Stack) :
    r.mayAcquire thread lock stack = (r, []) := by
  rw [mayAcquire, hheld]

theorem mayAcquire_of_ne_nil (hheld : r.heldBy thread ≠ []) (lock : Nat) (stack : Stack) :
    r.mayAcquire thread lock stack =
      ({ (r.classForLock thread lock stack).2.1 with
          classes := noteEdges (r.classForLock thread lock stack).2.1.classes (r.heldBy thread)
            ⟨lock, (r.classForLock thread lock stack).1, 0, stack⟩ },
        (r.classForLock thread lock stack).2.2) := by
  obtain ⟨h, held, hcons⟩ := List.exists_cons_of_ne_nil hheld
  rw [mayAcquire, hcons]

theorem threads_mayAcquire (r : Recorder) (thread lock : Nat) (stack : Stack) :
    (r.mayAcquire thread lock stack).1.threads = r.threads := by
  by_cases hheld : r.heldBy thread = []
  · rw [mayAcquire_of_eq_nil hheld]
  · rw [mayAcquire_of_ne_nil hheld]
    exact threads_classForLock r thread lock stack

/-- A call that takes nothing and gives nothing back changes no entry. -/
theorem heldBy_perform_of_none (hnew : r.taken? call = none)
    (hrelease : ∀ t lock, call ≠ .release t lock) (thread : Nat) :
    (r.perform call).1.heldBy thread = r.heldBy thread := by
  cases call with
  | acquire t lock stack => cases hnew
  | acquireLabeled t lock stack label rank => cases hnew
  | release t lock => exact absurd rfl (hrelease t lock)
  | mayAcquire t lock stack => exact heldBy_congr (threads_mayAcquire ..) thread
  | name lock label => rfl
  | intern frames => rfl

/-- An entry after a call was there before or is the one that the call adds. -/
theorem mem_heldBy_perform (hh : h ∈ (r.perform call).1.heldBy thread) :
    h ∈ r.heldBy thread ∨ r.taken? call = some (thread, h) := by
  cases hnew : r.taken? call with
  | some entry =>
    obtain ⟨t, new⟩ := entry
    rw [heldBy_perform_of_taken? hnew] at hh
    split at hh
    · next ht =>
      refine (List.mem_append.mp hh).imp_right fun hlast => ?_
      rw [List.mem_singleton.mp hlast, ht]
    · exact .inl hh
  | none =>
    cases call with
    | release t lock =>
      rw [perform, (heldBy_release_perm r t lock thread).mem_iff] at hh
      split at hh
      · exact .inl (List.mem_of_mem_eraseP hh)
      · exact .inl hh
    | _ =>
      rw [heldBy_perform_of_none hnew (by simp)] at hh
      exact .inl hh

/-! ### Counting -/

/-- The locks of the entries of a thread. -/
def locksOf (r : Recorder) (thread : Nat) : List Nat := (r.heldBy thread).map Held.lock

theorem count_locks_of_taken? {t : Nat} {new : Held} (hnew : r.taken? call = some (t, new))
    (thread lock : Nat) : ((r.perform call).1.locksOf thread).count lock =
      if t = thread ∧ new.lock = lock then (r.locksOf thread).count lock + 1
      else (r.locksOf thread).count lock := by
  rw [locksOf, heldBy_perform_of_taken? hnew]
  by_cases ht : t = thread
  · by_cases hlock : new.lock = lock <;> simp [locksOf, ht, hlock]
  · simp [locksOf, ht]

theorem count_locks_release (r : Recorder) (t k thread lock : Nat) :
    ((r.release t k).1.locksOf thread).count lock =
      if t = thread ∧ k = lock then (r.locksOf thread).count lock - 1
      else (r.locksOf thread).count lock := by
  have herase : ((r.heldBy thread).eraseP fun h => h.lock = k).map Held.lock =
      (r.locksOf thread).erase k := by
    rw [locksOf, List.erase_eq_eraseP, List.eraseP_map]
    congr 2
    funext h
    simp [beq_eq_decide, eq_comm]
  rw [locksOf, ((heldBy_release_perm r t k thread).map Held.lock).count_eq]
  by_cases ht : t = thread
  · rw [if_pos ht, herase, List.count_erase]
    by_cases hk : k = lock <;> simp [ht, hk]
  · simp [locksOf, ht]

/-- A call counts. -/
theorem count_locks_perform (r : Recorder) (call : Call) (thread lock : Nat) :
    ((r.perform call).1.locksOf thread).count lock =
      call.count thread lock ((r.locksOf thread).count lock) := by
  cases call with
  | acquire t k stack =>
    have hnew : r.taken? (.acquire t k stack) = some _ := rfl
    exact count_locks_of_taken? hnew thread lock
  | acquireLabeled t k stack label rank =>
    have hnew : r.taken? (.acquireLabeled t k stack label rank) = some _ := rfl
    exact count_locks_of_taken? hnew thread lock
  | release t k => exact count_locks_release r t k thread lock
  | _ => rw [locksOf, heldBy_perform_of_none rfl (by simp), Call.count, locksOf]

/-- A run counts. -/
theorem count_locks_run (table : StackTable) (calls : List Call) (thread lock : Nat) :
    (((empty table).run calls).locksOf thread).count lock = Ledger.holdCount thread lock calls := by
  induction calls using List.reverseRecOn with
  | nil => rfl
  | append_singleton calls call ih =>
    rw [run_concat, Ledger.holdCount_concat, count_locks_perform, ih]

theorem mem_heldBy_iff_holdCount (table : StackTable) (calls : List Call) (thread lock : Nat) :
    (∃ h ∈ ((empty table).run calls).heldBy thread, h.lock = lock) ↔
      Ledger.holdCount thread lock calls ≠ 0 := by
  rw [← count_locks_run table, Nat.ne_zero_iff_zero_lt, List.count_pos_iff, locksOf, List.mem_map]

/-! ### The class of an entry -/

theorem classLabel?_classForLabel {c : Nat} {A : String} (hc : classLabel? r.classes c = some A)
    (label : String) : classLabel? (r.classForLabel label).2.classes c = some A := by
  unfold classForLabel
  cases r.classOfLabel.get? label with
  | some d => exact hc
  | none => exact classLabel?_push_of_eq_some _ hc

theorem classLabel?_classForLock {c : Nat} {A : String} (hc : classLabel? r.classes c = some A)
    (thread lock : Nat) (stack : Stack) :
    classLabel? (r.classForLock thread lock stack).2.1.classes c = some A := by
  unfold classForLock
  cases r.classOfLock.get? lock with
  | some d => exact hc
  | none => cases r.names.get? lock <;> exact classLabel?_classForLabel hc _

theorem classes_release (r : Recorder) (thread lock : Nat) :
    (r.release thread lock).1.classes = r.classes := by
  cases hfind : (r.heldBy thread).findIdx? fun h => h.lock = lock with
  | none =>
    obtain ⟨event, hrelease, _⟩ := release_of_findIdx?_eq_none hfind
    rw [hrelease]
  | some i => rw [release_of_findIdx?_eq_some hfind]

/-- The label of a class never changes. -/
theorem classLabel?_perform {c : Nat} {A : String} (hc : classLabel? r.classes c = some A)
    (call : Call) : classLabel? (r.perform call).1.classes c = some A := by
  cases call with
  | acquire thread lock stack =>
    exact (classLabel?_noteEdges _ _).trans (classLabel?_classForLock hc thread lock stack)
  | acquireLabeled thread lock stack label rank =>
    exact (classLabel?_noteEdges _ _).trans (classLabel?_classForLabel hc label)
  | mayAcquire thread lock stack =>
    rw [perform]
    by_cases hheld : r.heldBy thread = []
    · rwa [mayAcquire_of_eq_nil hheld]
    · rw [mayAcquire_of_ne_nil hheld]
      exact (classLabel?_noteEdges _ _).trans (classLabel?_classForLock hc thread lock stack)
  | release thread lock => rwa [perform, classes_release]
  | name lock label => exact hc
  | intern frames => exact hc

theorem classLabel?_run {c : Nat} {A : String} (hc : classLabel? r.classes c = some A)
    (calls : List Call) : classLabel? (r.run calls).classes c = some A := by
  induction calls using List.reverseRecOn with
  | nil => exact hc
  | append_singleton calls call ih =>
    rw [run_concat]
    exact classLabel?_perform ih call

/-- The class of a new entry has the label that the ledger writes down. -/
theorem Mirrors.exists_label_of_taken? {l : Ledger} (hl : Mirrors r l)
    (hnew : r.taken? call = some (thread, h)) :
    ∃ label, classLabel? (r.perform call).1.classes h.lockClass = some label ∧
      l.acquisition? call = some (thread, ⟨h.lock, label, h.rank, h.stack⟩) := by
  cases call with
  | acquire t lock stack =>
    cases hnew
    obtain ⟨c, r', events, hclass, hc, _, _⟩ := hl.classForLock thread lock stack
    refine ⟨l.labelOf lock, ?_, rfl⟩
    rw [Recorder.perform, acquire, hclass]
    exact (classLabel?_noteEdges _ _).trans hc
  | acquireLabeled t lock stack label rank =>
    cases hnew
    obtain ⟨c, r', hclass, hc, _, _⟩ := hl.classForLabel label
    refine ⟨label, ?_, rfl⟩
    rw [Recorder.perform, acquireLabeled, hclass]
    exact (classLabel?_noteEdges _ _).trans hc
  | _ => cases hnew

/-! ### The entry of a lock that is held once -/

theorem count_of_takes? (hcall : call.takes? = some (thread, lock)) (n : Nat) :
    call.count thread lock n = n + 1 := by
  cases call with
  | acquire t k stack => cases hcall; exact if_pos ⟨rfl, rfl⟩
  | acquireLabeled t k stack label rank => cases hcall; exact if_pos ⟨rfl, rfl⟩
  | _ => cases hcall

/-- The entry of a lock that a thread never held twice at once is the one that was made when the
thread took the lock for the last time. -/
theorem exists_latest_taking (table : StackTable) (calls : List Call)
    (honce : ∀ before, before <+: calls → Ledger.holdCount thread h.lock before ≤ 1)
    (hh : h ∈ ((empty table).run calls).heldBy thread) :
    ∃ before call after, calls = before ++ call :: after ∧
      ((empty table).run before).taken? call = some (thread, h) ∧
      ∀ later ∈ after, later.takes? ≠ some (thread, h.lock) := by
  induction calls using List.reverseRecOn with
  | nil => cases hh
  | append_singleton calls call ih =>
    rw [run_concat] at hh
    rcases mem_heldBy_perform hh with hold | hnew
    · obtain ⟨before, first, after, hsplit, hfirst, hafter⟩ :=
        ih (fun before hbefore => honce before (hbefore.trans (List.prefix_append _ _))) hold
      refine ⟨before, first, after ++ [call], by simp [hsplit], hfirst, fun later hlater => ?_⟩
      rcases List.mem_append.mp hlater with hlater | hlater
      · exact hafter later hlater
      · -- taken again, the lock would be held twice
        obtain rfl := List.mem_singleton.mp hlater
        intro hcall
        have hheld := (mem_heldBy_iff_holdCount table calls thread h.lock).mp ⟨h, hold, rfl⟩
        have htwice := honce _ (List.prefix_refl _)
        rw [Ledger.holdCount_concat, count_of_takes? hcall] at htwice
        omega
    · exact ⟨calls, call, [], rfl, hnew, by simp⟩

/-! ### Held locks -/

/-- **Held locks are counters.** After any run, a thread has as many entries for a lock as its
counter for the lock says: the calls by which it takes the lock count up, and its releases of the
lock count down unless the counter is zero. The number of locks that a thread holds is the sum of
its counters. If the thread never held the lock twice at once, the entry for it is the one that was
made when the thread took it for the last time, and its class still has the label that the lock was
taken under. A release at zero changes nothing and is warned about once, and any other release is
not warned about. -/
theorem held_locks_counted (table : StackTable) (calls : List Call) :
    let r := (empty table).run calls
    (∀ thread lock, ((r.heldBy thread).map Held.lock).count lock =
        Ledger.holdCount thread lock calls) ∧
      (∀ thread, ∃ locks : Finset Nat,
        (∀ lock ∉ locks, Ledger.holdCount thread lock calls = 0) ∧
        r.heldCount thread = ∑ lock ∈ locks, Ledger.holdCount thread lock calls) ∧
      (∀ thread lock, (∀ before, before <+: calls → Ledger.holdCount thread lock before ≤ 1) →
        ∀ h ∈ r.heldBy thread, h.lock = lock →
          ∃ before call after, calls = before ++ call :: after ∧
            ((empty table).run before).taken? call = some (thread, h) ∧
            (Ledger.replay before).acquisition? call = some (thread, holding r.classes h) ∧
            ∀ later ∈ after, later.takes? ≠ some (thread, lock)) ∧
      (∀ thread lock, Ledger.holdCount thread lock calls = 0 →
        ∃ event, r.release thread lock = (r, [event]) ∧ event.level = .warn) ∧
      ∀ thread lock, Ledger.holdCount thread lock calls ≠ 0 → (r.release thread lock).2 = [] := by
  intro r
  refine ⟨count_locks_run table calls, fun thread => ?_, ?_, ?_, ?_⟩
  · have hcount := count_locks_run table calls thread
    refine ⟨(r.locksOf thread).toFinset, fun lock hlock => ?_, ?_⟩
    · rw [← hcount, List.count_eq_zero]
      simpa using hlock
    · simp only [← hcount]
      rw [List.sum_toFinset_count_eq_length, locksOf, List.length_map, heldCount]
  · rintro thread lock honce h hh rfl
    obtain ⟨before, call, after, rfl, hnew, hafter⟩ := exists_latest_taking table calls honce hh
    refine ⟨before, call, after, rfl, hnew, ?_, hafter⟩
    obtain ⟨label, hlabel, hledger⟩ := (mirrors_run table before).exists_label_of_taken? hnew
    have hrun : r = (((empty table).run before).perform call).1.run after := List.foldl_append
    have hstill := classLabel?_run hlabel after
    rw [← hrun] at hstill
    rw [hledger, holding, hstill, Option.getD_some]
  · intro thread lock hzero
    refine release_of_findIdx?_eq_none (List.findIdx?_eq_none_iff.mpr fun h hh => ?_)
    refine decide_eq_false fun hlock => ?_
    exact (mem_heldBy_iff_holdCount table calls thread lock).mp ⟨h, hh, hlock⟩ hzero
  · intro thread lock hpos
    obtain ⟨h, hh, hlock⟩ := (mem_heldBy_iff_holdCount table calls thread lock).mpr hpos
    cases hfind : (r.heldBy thread).findIdx? fun h => h.lock = lock with
    | none =>
      exact absurd hlock (of_decide_eq_false (List.findIdx?_eq_none_iff.mp hfind h hh))
    | some i => rw [release_of_findIdx?_eq_some hfind]

/-- A thread takes three locks, gives back the first, so that the third moves, and takes it again
under another label, with another rank and stack. -/
theorem held_locks_counted_retaken :
    let a : Stack := ⟨[.resolved 0 0 1]⟩
    let b : Stack := ⟨[.resolved 0 0 2]⟩
    let calls : List Call := [.acquire 1 10 a, .acquire 1 20 a, .acquire 1 30 a, .release 1 10,
      .name 10 "x", .acquireLabeled 1 10 b "y" 3, .mayAcquire 1 10 a, .release 1 20,
      .acquire 2 10 a]
    let r := (empty .empty).run calls
    (∀ before, before <+: calls → Ledger.holdCount 1 10 before ≤ 1) ∧
      ((r.heldBy 1).map Held.lock).count 10 = 1 ∧
      (∀ h ∈ r.heldBy 1, h.lock = 10 →
        ∃ before call after, calls = before ++ call :: after ∧
          ((empty .empty).run before).taken? call = some (1, h) ∧
          (Ledger.replay before).acquisition? call = some (1, holding r.classes h) ∧
          ∀ later ∈ after, later.takes? ≠ some (1, 10)) ∧
      (∃ event, r.release 1 20 = (r, [event]) ∧ event.level = .warn) ∧
      (r.release 1 30).2 = [] := by
  intro a b calls r
  have honce : ∀ before, before <+: calls → Ledger.holdCount 1 10 before ≤ 1 := by
    simp only [← List.mem_inits]
    decide
  obtain ⟨hcount, _, hentry, hzero, hpos⟩ := held_locks_counted .empty calls
  exact ⟨honce, hcount 1 10, hentry 1 10 honce, hzero 1 20 rfl, hpos 1 30 (by decide)⟩

end Recorder

end LockOrder
