import LockOrder.Recorder.Finish
import Mathlib.Data.List.Induction
import Mathlib.Logic.Function.Basic

/-!
# Runs and their ledger

A run is a sequence of calls of a recorder. A *ledger* is the account of a run that one would keep
by hand: the labels given to locks, the locks that each thread holds with the labels that they were
taken under, and a flat log. Whenever a thread takes a lock, or might take one while it holds some,
the log gets an entry for each lock that it holds, except for a rise in rank inside one class.

A ledger knows nothing of classes, hashes or evidence.

## Main definitions

* `Call`, `Recorder.perform`, `Recorder.run` — runs of a recorder
* `Ledger`, `Ledger.step`, `Ledger.replay` — the ledger of a run
* `Ledger.Precedes` — a lock of one class was held when a lock of another was taken

## Main results

* `Ledger.mem_log_iff` — the entries of the log, call by call
* `Ledger.precedes_iff_logged` — the log tells which classes precede others
-/

namespace LockOrder

/-- A call of a recorder. -/
inductive Call where
  /-- A lock is given a label. -/
  | name (lock : Nat) (label : String)
  /-- A thread takes a lock. -/
  | acquire (thread lock : Nat) (stack : Stack)
  /-- A thread takes a lock whose class and rank are given. -/
  | acquireLabeled (thread lock : Nat) (stack : Stack) (label : String) (rank : Nat)
  /-- A thread might take a lock. -/
  | mayAcquire (thread lock : Nat) (stack : Stack)
  /-- A thread gives a lock back. -/
  | release (thread lock : Nat)
  /-- A stack is interned. -/
  | intern (frames : List (SourceLine ⊕ String))
deriving DecidableEq, Repr

namespace Recorder

/-- What a call does. -/
def perform (r : Recorder) : Call → Recorder × List Event
  | .name lock label => (r.nameLock lock label, [])
  | .acquire thread lock stack => r.acquire thread lock stack
  | .acquireLabeled thread lock stack label rank =>
    (r.acquireLabeled thread lock stack label rank, [])
  | .mayAcquire thread lock stack => r.mayAcquire thread lock stack
  | .release thread lock => r.release thread lock
  | .intern frames => ((r.internStack frames).2, [])

/-- The recorder after a run. -/
def run (r : Recorder) (calls : List Call) : Recorder :=
  calls.foldl (fun r call => (r.perform call).1) r

theorem run_concat (r : Recorder) (calls : List Call) (call : Call) :
    r.run (calls ++ [call]) = ((r.run calls).perform call).1 := by
  rw [run, List.foldl_append]
  rfl

end Recorder

/-! ### Ledgers -/

/-- A lock that a thread holds, with the label that it was taken under. -/
structure Holding where
  /-- The lock. -/
  lock : Nat
  /-- The label of its class when it was taken. -/
  label : String
  /-- Its rank in that class. -/
  rank : Nat
  /-- Where it was taken. -/
  stack : Stack
deriving DecidableEq, Repr

/-- An entry of the log: a lock was taken while another was held. -/
structure Sighting where
  /-- The label of the lock that was held. -/
  source : String
  /-- The label of the lock that was taken. -/
  target : String
  /-- Where the first lock was taken. -/
  first : Stack
  /-- Where the second lock was taken. -/
  second : Stack
deriving DecidableEq, Repr

/-- The account of a run. -/
structure Ledger where
  /-- The label that was last given to each lock. -/
  names : Nat → Option String
  /-- The locks that each thread holds. -/
  held : Nat → List Holding
  /-- The labels of the locks that were taken. -/
  taken : List String
  /-- The log. -/
  log : List Sighting

namespace Ledger

/-- The account of no call. -/
def empty : Ledger := ⟨fun _ => none, fun _ => [], [], []⟩

/-- The label that a lock is taken under: the one given last, or its number in hexadecimal. -/
def labelOf (l : Ledger) (lock : Nat) : String :=
  (l.names lock).getD ("0x" ++ String.ofList (Nat.toDigits 16 lock))

/-- The thread and the lock of a call that takes a lock, or might do so while others are held. -/
def acquisition? (l : Ledger) : Call → Option (Nat × Holding)
  | .acquire thread lock stack => some (thread, ⟨lock, l.labelOf lock, 0, stack⟩)
  | .acquireLabeled thread lock stack label rank => some (thread, ⟨lock, label, rank, stack⟩)
  | .mayAcquire thread lock stack =>
    if l.held thread = [] then none else some (thread, ⟨lock, l.labelOf lock, 0, stack⟩)
  | _ => none

/-- The entry for a lock that is taken while another is held; a rise in rank inside one class has
none. -/
def sighting? (new held : Holding) : Option Sighting :=
  if held.label = new.label ∧ held.rank < new.rank then none
  else some ⟨held.label, new.label, held.stack, new.stack⟩

/-- The entries that a call adds to the log. -/
def sightings (l : Ledger) (call : Call) : List Sighting :=
  match l.acquisition? call with
  | some (thread, new) => (l.held thread).filterMap (sighting? new)
  | none => []

/-- The locks that a thread holds without the first entry for `lock`; the last entry takes its
place. -/
def dropFirst (lock : Nat) (held : List Holding) : List Holding :=
  match held.findIdx? fun h => h.lock = lock with
  | some i => swapRemove held i
  | none => held

/-- The locks that each thread holds after a call. -/
def heldAfter (l : Ledger) : Call → Nat → List Holding
  | .acquire thread lock stack =>
    Function.update l.held thread (l.held thread ++ [⟨lock, l.labelOf lock, 0, stack⟩])
  | .acquireLabeled thread lock stack label rank =>
    Function.update l.held thread (l.held thread ++ [⟨lock, label, rank, stack⟩])
  | .release thread lock => Function.update l.held thread (dropFirst lock (l.held thread))
  | _ => l.held

/-- The labels given to locks after a call. -/
def namesAfter (l : Ledger) : Call → Nat → Option String
  | .name lock label => Function.update l.names lock (some label)
  | _ => l.names

/-- The account after one more call. -/
def step (l : Ledger) (call : Call) : Ledger where
  names := l.namesAfter call
  held := l.heldAfter call
  taken := l.taken ++ (l.acquisition? call).toList.map fun entry => entry.2.label
  log := l.log ++ l.sightings call

theorem step_of_eq_none {l : Ledger} {call : Call} (h : l.acquisition? call = none) :
    l.step call = ⟨l.namesAfter call, l.heldAfter call, l.taken, l.log⟩ := by
  simp [step, sightings, h]

theorem step_of_eq_some {l : Ledger} {call : Call} {thread : Nat} {new : Holding}
    (h : l.acquisition? call = some (thread, new)) :
    l.step call = ⟨l.namesAfter call, l.heldAfter call, l.taken ++ [new.label],
      l.log ++ (l.held thread).filterMap (sighting? new)⟩ := by
  simp [step, sightings, h]

/-- The account of a run. -/
def replay (calls : List Call) : Ledger := calls.foldl step empty

theorem replay_concat (calls : List Call) (call : Call) :
    replay (calls ++ [call]) = (replay calls).step call := by
  rw [replay, List.foldl_append]
  rfl

/-! ### The log call by call -/

/-- At some call of the run, `P` holds of the account before it and the call. -/
def AtSomeCall (calls : List Call) (P : Ledger → Call → Prop) : Prop :=
  ∃ before call after, calls = before ++ call :: after ∧ P (replay before) call

/-- A thread took a lock of the class `target`, or might have done so, while it held a lock of the
class `source`. -/
def Precedes (calls : List Call) (source target : String) : Prop :=
  AtSomeCall calls fun l call => ∃ thread new, l.acquisition? call = some (thread, new) ∧
    new.label = target ∧ ∃ h ∈ l.held thread, h.label = source

theorem not_atSomeCall_nil (P : Ledger → Call → Prop) : ¬ AtSomeCall [] P := by
  rintro ⟨before, call, after, hsplit, _⟩
  simp at hsplit

theorem atSomeCall_concat (calls : List Call) (call : Call) (P : Ledger → Call → Prop) :
    AtSomeCall (calls ++ [call]) P ↔ AtSomeCall calls P ∨ P (replay calls) call := by
  constructor
  · rintro ⟨before, here, after, hsplit, hP⟩
    rcases List.eq_nil_or_concat after with rfl | ⟨after, last, rfl⟩
    · obtain ⟨rfl, heq⟩ := List.append_inj' hsplit rfl
      obtain rfl : call = here := by simpa using heq
      exact .inr hP
    · rw [List.concat_eq_append, ← List.cons_append, ← List.append_assoc] at hsplit
      exact .inl ⟨before, here, after, (List.append_inj' hsplit rfl).1, hP⟩
  · rintro (⟨before, here, after, rfl, hP⟩ | hP)
    · exact ⟨before, here, after ++ [call], by simp, hP⟩
    · exact ⟨calls, call, [], rfl, hP⟩

/-- The log holds the entries that the calls added. -/
theorem mem_log_iff {calls : List Call} {s : Sighting} :
    s ∈ (replay calls).log ↔ AtSomeCall calls fun l call => s ∈ l.sightings call := by
  induction calls using List.reverseRecOn with
  | nil => simp [replay, empty, not_atSomeCall_nil]
  | append_singleton calls call ih =>
    rw [replay_concat, atSomeCall_concat, ← ih, step, List.mem_append]

theorem mem_sightings_iff {l : Ledger} {call : Call} {s : Sighting} :
    s ∈ l.sightings call ↔ ∃ thread new, l.acquisition? call = some (thread, new) ∧
      ∃ h ∈ l.held thread, sighting? new h = some s := by
  unfold sightings
  cases l.acquisition? call with
  | none => simp
  | some entry =>
    obtain ⟨thread, new⟩ := entry
    simp [List.mem_filterMap]

/-- Of two different classes, one precedes the other exactly when the log says so. -/
theorem precedes_iff_logged {calls : List Call} {source target : String} (hne : source ≠ target) :
    Precedes calls source target ↔
      ∃ s ∈ (replay calls).log, s.source = source ∧ s.target = target := by
  constructor
  · rintro ⟨before, call, after, hsplit, thread, new, hnew, rfl, h, hh, rfl⟩
    -- the labels differ, so the ranks do not matter
    have hsighting : sighting? new h = some ⟨h.label, new.label, h.stack, new.stack⟩ :=
      if_neg fun hrise => hne hrise.1
    have hmem := mem_sightings_iff.mpr ⟨thread, new, hnew, h, hh, hsighting⟩
    exact ⟨_, mem_log_iff.mpr ⟨before, call, after, hsplit, hmem⟩, rfl, rfl⟩
  · rintro ⟨s, hs, rfl, rfl⟩
    obtain ⟨before, call, after, hsplit, hmem⟩ := mem_log_iff.mp hs
    obtain ⟨thread, new, hnew, h, hh, hsighting⟩ := mem_sightings_iff.mp hmem
    unfold sighting? at hsighting
    split at hsighting
    · simp at hsighting
    · obtain rfl := Option.some.inj hsighting
      exact ⟨before, call, after, hsplit, thread, new, hnew, rfl, h, hh, rfl⟩

end Ledger

end LockOrder
