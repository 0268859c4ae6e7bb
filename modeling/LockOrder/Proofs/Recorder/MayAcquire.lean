import LockOrder.Proofs.Recorder.Held

/-!
# Locks that might be taken

A lock that a thread might take is recorded as if the thread took it: the class of the lock is made
in the same way, and the same edges are noted from the locks that the thread holds. Only the entry
of the lock is not made. Taking the lock and giving it back at once has the same effect, because the
release removes the last entry and no other one moves.

## Main results

* `Recorder.acquire_eq_mayAcquire` — taking a lock is noting its edges and adding an entry
* `Recorder.release_insert_concat` — giving back what was taken last
* `Recorder.mayAcquire_records_acquire` — what might be taken is recorded like what is taken
-/

namespace LockOrder.Recorder

variable {r : Recorder} {thread : Nat}

/-- A thread that holds something takes a lock: the edges are noted as if it might take the lock,
and an entry is added. -/
theorem acquire_eq_mayAcquire (hheld : r.heldBy thread ≠ []) (lock : Nat) (stack : Stack) :
    r.acquire thread lock stack =
      ({ (r.mayAcquire thread lock stack).1 with
          threads := r.threads.insert thread
            (r.heldBy thread ++ [⟨lock, (r.classForLock thread lock stack).1, 0, stack⟩]) },
        (r.mayAcquire thread lock stack).2) := by
  have htake : r.acquire thread lock stack =
      ((r.classForLock thread lock stack).2.1.take thread
        ⟨lock, (r.classForLock thread lock stack).1, 0, stack⟩,
        (r.classForLock thread lock stack).2.2) := rfl
  rw [mayAcquire_of_ne_nil hheld, htake, take, heldBy_congr (threads_classForLock ..),
    threads_classForLock]

theorem swapRemove_concat_length {α : Type} (xs : List α) (x : α) :
    swapRemove (xs ++ [x]) xs.length = xs := by
  simp [swapRemove]

/-- A thread that holds other locks gives back the one that it took last. -/
theorem release_insert_concat {new : Held} (hheld : r.heldBy thread ≠ [])
    (hnot : ∀ h ∈ r.heldBy thread, h.lock ≠ new.lock) :
    release { r with threads := r.threads.insert thread (r.heldBy thread ++ [new]) } thread
      new.lock = (r, []) := by
  have hget : r.threads.get? thread = some (r.heldBy thread) := by
    cases hthread : r.threads.get? thread with
    | none => simp [heldBy, hthread] at hheld
    | some held => simp [heldBy, hthread]
  have hnew : heldBy { r with threads := r.threads.insert thread (r.heldBy thread ++ [new]) }
      thread = r.heldBy thread ++ [new] := by
    rw [heldBy_insert, if_pos rfl]
  -- the entry is the only one for its lock, and the last one
  have hfind : (r.heldBy thread ++ [new]).findIdx? (fun h => h.lock = new.lock) =
      some (r.heldBy thread).length := by
    have hnone : (r.heldBy thread).findIdx? (fun h => h.lock = new.lock) = none :=
      List.findIdx?_eq_none_iff.mpr fun h hh => decide_eq_false (hnot h hh)
    simp [List.findIdx?_append, hnone, List.findIdx?_cons]
  rw [release_of_findIdx?_eq_some (hnew ▸ hfind), hnew, swapRemove_concat_length,
    Dictionary.insert_insert, Dictionary.insert_eq_self hget]

/-- **A lock that might be taken is recorded like one that is taken**, in whatever state. The locks
that threads hold stay as they are. If the thread holds something, the graph recorded so far and the
warnings are those of taking the lock; and if it does not hold the lock already, taking the lock and
giving it back leads to the same state, without a warning for the release. For a thread that holds
nothing, nothing changes. -/
theorem mayAcquire_records_acquire (r : Recorder) (thread lock : Nat) (stack : Stack) :
    let might := r.mayAcquire thread lock stack
    let taken := r.acquire thread lock stack
    (∀ t, might.1.heldBy t = r.heldBy t) ∧
      (r.heldBy thread ≠ [] → might.1.finish = taken.1.finish ∧ might.2 = taken.2 ∧
        ((∀ h ∈ r.heldBy thread, h.lock ≠ lock) →
          taken.1.release thread lock = (might.1, []))) ∧
      (r.heldBy thread = [] → might = (r, [])) := by
  intro might taken
  have hthreads : might.1.threads = r.threads := threads_mayAcquire r thread lock stack
  have hsame : ∀ t, might.1.heldBy t = r.heldBy t := heldBy_congr hthreads
  refine ⟨hsame, fun hheld => ?_, fun hnil => mayAcquire_of_eq_nil hnil lock stack⟩
  have htaken : taken =
      ({ might.1 with
          threads := might.1.threads.insert thread
            (might.1.heldBy thread ++ [⟨lock, (r.classForLock thread lock stack).1, 0, stack⟩]) },
        might.2) := by
    rw [hthreads, hsame]
    exact acquire_eq_mayAcquire hheld lock stack
  rw [htaken]
  -- the recorded graph does not look at the threads
  refine ⟨rfl, rfl, fun hnot => ?_⟩
  rw [← hsame thread] at hheld hnot
  exact release_insert_concat hheld hnot

/-- A thread that holds a lock might take another one that it held before; a second thread holds
nothing. -/
theorem mayAcquire_records_acquire_again :
    let a : Stack := ⟨[.resolved 0 0 1]⟩
    let r := (empty .empty).run [.acquireLabeled 1 10 a "x" 0, .acquireLabeled 1 30 a "z" 2,
      .release 1 10]
    r.heldBy 1 ≠ [] ∧ (∀ h ∈ r.heldBy 1, h.lock ≠ 10) ∧ r.heldBy 2 = [] ∧
      (r.mayAcquire 1 10 a).1.finish = (r.acquire 1 10 a).1.finish ∧
      (r.acquire 1 10 a).1.release 1 10 = ((r.mayAcquire 1 10 a).1, []) ∧
      r.mayAcquire 2 10 a = (r, []) := by
  intro a r
  have hheld : r.heldBy 1 ≠ [] := by decide
  have hnot : ∀ h ∈ r.heldBy 1, h.lock ≠ 10 := by decide
  have hnil : r.heldBy 2 = [] := by decide
  obtain ⟨_, hone, _⟩ := mayAcquire_records_acquire r 1 10 a
  obtain ⟨_, _, htwo⟩ := mayAcquire_records_acquire r 2 10 a
  obtain ⟨hfinish, _, hrelease⟩ := hone hheld
  exact ⟨hheld, hnot, hnil, hfinish, hrelease hnot, htwo hnil⟩

end LockOrder.Recorder
