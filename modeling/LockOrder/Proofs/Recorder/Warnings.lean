import LockOrder.Proofs.Recorder.Held
import LockOrder.Proofs.Recorder.Sound

/-!
# Warnings about locks without a label

A lock that is taken by its own label before it was given one is warned about. The recorder finds
out that it has warned already by looking into the classes that it remembers: the class of such a
lock is made with the warning and stays there until the lock is given a label, and from then on
there is nothing to warn about. Calls that bring their own label leave no class behind, and a thread
that holds nothing and might take a lock does not ask for one.

## Main definitions

* `Recorder.events` — what a run tells
* `Event.warnsOf` — a warning about a lock
* `Ledger.lookup?` — calls that ask for the class of a lock
* `Ledger.TakesUnnamed`, `Ledger.TakenUnnamed` — a lock is taken before it has a label

## Main results

* `Recorder.perform_of_lookup?`, `Recorder.perform_of_lookup?_eq_none` — what a call tells
* `Recorder.cached_iff_takenUnnamed` — the class of a lock without a label is remembered
* `Recorder.unnamed_lock_warned_once` — a lock without a label is warned about once
-/

namespace LockOrder

/-- An event warns that a lock without a label was taken. -/
def Event.warnsOf (lock : Nat) : Event → Bool
  | .unlabeledLock _ k _ => k = lock
  | _ => false

/-- The events of a run. -/
def Recorder.events (r : Recorder) : List Call → List Event
  | [] => []
  | call :: calls => (r.perform call).2 ++ (r.perform call).1.events calls

theorem Recorder.events_concat (r : Recorder) (calls : List Call) (call : Call) :
    r.events (calls ++ [call]) = r.events calls ++ ((r.run calls).perform call).2 := by
  induction calls generalizing r with
  | nil => simp [events, run]
  | cons first calls ih =>
    rw [List.cons_append, events, ih, events, List.append_assoc]
    rfl

/-! ### Locks that are taken before they have a label -/

namespace Ledger

variable {l : Ledger} {calls before : List Call} {call : Call} {thread lock : Nat} {stack : Stack}

/-- The thread, the lock and the stack of a call that takes a lock by its own label, or might do so
while the thread holds something. -/
def lookup? (l : Ledger) : Call → Option (Nat × Nat × Stack)
  | .acquire thread lock stack => some (thread, lock, stack)
  | .mayAcquire thread lock stack => if l.held thread = [] then none else some (thread, lock, stack)
  | .name .. | .acquireLabeled .. | .release .. | .intern .. => none

/-- After the run `before`, which gave the lock no label, a call takes the lock by its own label, or
might do so while the thread holds something. -/
structure TakesUnnamed (before : List Call) (call : Call) (thread lock : Nat) (stack : Stack) :
    Prop where
  /-- The lock was given no label. -/
  unnamed : ∀ label, Call.name lock label ∉ before
  /-- The call asks for the class of the lock. -/
  lookup : (replay before).lookup? call = some (thread, lock, stack)

/-- Some call of a run takes the lock before the lock is given a label. -/
def TakenUnnamed (calls : List Call) (lock : Nat) : Prop :=
  ∃ before call after thread stack,
    calls = before ++ call :: after ∧ TakesUnnamed before call thread lock stack

/-- A lock has no label exactly if no call gave it one. -/
theorem names_replay_eq_none_iff :
    (replay calls).names lock = none ↔ ∀ label, Call.name lock label ∉ calls := by
  induction calls using List.reverseRecOn with
  | nil => simp [replay, empty]
  | append_singleton calls call ih =>
    rw [replay_concat, step]
    cases call with
    | name k label =>
      by_cases hk : lock = k
      · subst hk
        simp only [namesAfter, Function.update_self, reduceCtorEq, false_iff, not_forall, not_not]
        exact ⟨label, by simp⟩
      · simp [namesAfter, ih, hk]
    | _ => simp [namesAfter, ih]

theorem takenUnnamed_iff_atSomeCall :
    TakenUnnamed calls lock ↔ AtSomeCall calls fun l call =>
      l.names lock = none ∧ ∃ thread stack, l.lookup? call = some (thread, lock, stack) := by
  constructor
  · rintro ⟨before, call, after, thread, stack, hsplit, hunnamed, hlookup⟩
    exact ⟨before, call, after, hsplit, names_replay_eq_none_iff.mpr hunnamed, thread, stack,
      hlookup⟩
  · rintro ⟨before, call, after, hsplit, hunnamed, thread, stack, hlookup⟩
    exact ⟨before, call, after, thread, stack, hsplit, names_replay_eq_none_iff.mp hunnamed,
      hlookup⟩

theorem not_takenUnnamed_nil : ¬ TakenUnnamed [] lock :=
  fun h => not_atSomeCall_nil _ (takenUnnamed_iff_atSomeCall.mp h)

theorem takenUnnamed_concat : TakenUnnamed (calls ++ [call]) lock ↔
    TakenUnnamed calls lock ∨ ∃ thread stack, TakesUnnamed calls call thread lock stack := by
  rw [takenUnnamed_iff_atSomeCall, atSomeCall_concat, ← takenUnnamed_iff_atSomeCall]
  refine or_congr_right ⟨?_, ?_⟩
  · rintro ⟨hunnamed, thread, stack, hlookup⟩
    exact ⟨thread, stack, names_replay_eq_none_iff.mp hunnamed, hlookup⟩
  · rintro ⟨thread, stack, hunnamed, hlookup⟩
    exact ⟨names_replay_eq_none_iff.mpr hunnamed, thread, stack, hlookup⟩

/-- Of the calls that take a lock before it has a label, one is the first. -/
theorem TakenUnnamed.exists_first (h : TakenUnnamed calls lock) :
    ∃ before call after thread stack, calls = before ++ call :: after ∧
      TakesUnnamed before call thread lock stack ∧ ¬ TakenUnnamed before lock := by
  induction calls using List.reverseRecOn with
  | nil => exact absurd h not_takenUnnamed_nil
  | append_singleton calls call ih =>
    by_cases hearlier : TakenUnnamed calls lock
    · obtain ⟨before, first, after, thread, stack, rfl, hfirst⟩ := ih hearlier
      exact ⟨before, first, after ++ [call], thread, stack, by simp, hfirst⟩
    · obtain ⟨thread, stack, htakes⟩ := (takenUnnamed_concat.mp h).resolve_left hearlier
      exact ⟨calls, call, [], thread, stack, rfl, htakes, hearlier⟩

theorem stack?_of_lookup? (h : l.lookup? call = some (thread, lock, stack)) :
    call.stack? = some stack := by
  cases call with
  | acquire t k s => cases h; rfl
  | mayAcquire t k s =>
    simp only [lookup?] at h
    split at h
    · cases h
    · cases h; rfl
  | _ => cases h

end Ledger

/-! ### What a call tells -/

namespace Recorder

open Ledger (TakesUnnamed TakenUnnamed)

variable {r : Recorder} {l : Ledger} {calls : List Call} {call : Call} {thread lock : Nat}
  {stack : Stack}

theorem classOfLock_classForLabel (r : Recorder) (label : String) :
    (r.classForLabel label).2.classOfLock = r.classOfLock := by
  unfold classForLabel
  cases r.classOfLabel.get? label <;> rfl

/-- A class is made for a lock if none is remembered, with a warning if the lock has no label. -/
theorem events_classForLock (r : Recorder) (thread lock : Nat) (stack : Stack) :
    (r.classForLock thread lock stack).2.2 =
      if r.classOfLock.get? lock = none ∧ r.names.get? lock = none
      then [.unlabeledLock thread lock stack] else [] := by
  unfold classForLock
  cases r.classOfLock.get? lock with
  | some c => simp
  | none => cases r.names.get? lock <;> simp

/-- The class of the lock is remembered, and what is remembered of other locks stays. -/
theorem cached_classForLock (r : Recorder) (thread k lock : Nat) (stack : Stack) :
    (r.classForLock thread k stack).2.1.classOfLock.get? lock ≠ none ↔
      r.classOfLock.get? lock ≠ none ∨ k = lock := by
  unfold classForLock
  cases hcache : r.classOfLock.get? k with
  | some c =>
    refine ⟨.inl, ?_⟩
    rintro (hlock | rfl)
    · exact hlock
    · simp [hcache]
  | none =>
    have hinsert : ∀ (label : String) (c : Nat),
        ((r.classForLabel label).2.classOfLock.insert k c).get? lock ≠ none ↔
          r.classOfLock.get? lock ≠ none ∨ k = lock := by
      intro label c
      rw [Dictionary.get?_insert, classOfLock_classForLabel]
      by_cases hk : k = lock <;> simp [hk]
    cases r.names.get? k with
    | some label => exact hinsert label _
    | none => exact hinsert (Event.hexText k) _

/-- A call that asks for the class of a lock tells what making the class tells, and remembers what
that remembers. -/
theorem perform_of_lookup? (hl : Mirrors r l) (h : l.lookup? call = some (thread, lock, stack)) :
    (r.perform call).2 = (r.classForLock thread lock stack).2.2 ∧
      (r.perform call).1.classOfLock = (r.classForLock thread lock stack).2.1.classOfLock := by
  cases call with
  | acquire t k s =>
    cases h
    exact ⟨rfl, rfl⟩
  | mayAcquire t k s =>
    simp only [Ledger.lookup?] at h
    split at h
    · cases h
    · next hheld =>
      cases h
      rw [hl.held_eq, List.map_eq_nil_iff] at hheld
      rw [perform, mayAcquire_of_ne_nil hheld]
      exact ⟨rfl, rfl⟩
  | _ => cases h

/-- A release tells nothing about locks without a label. -/
theorem release_tells (r : Recorder) (thread k : Nat) :
    (∀ lock, (r.release thread k).2.countP (Event.warnsOf lock) = 0) ∧
      (r.release thread k).1.classOfLock = r.classOfLock := by
  unfold release
  cases r.threads.get? thread with
  | none => exact ⟨fun lock => rfl, rfl⟩
  | some held =>
    dsimp only
    cases held.findIdx? fun h => h.lock = k <;> exact ⟨fun lock => rfl, rfl⟩

/-- Any other call warns of no lock, and only a new label makes it forget the class of a lock. -/
theorem perform_of_lookup?_eq_none (hl : Mirrors r l) (h : l.lookup? call = none) (lock : Nat) :
    (r.perform call).2.countP (Event.warnsOf lock) = 0 ∧
      ((∀ label, call ≠ .name lock label) →
        (r.perform call).1.classOfLock.get? lock = r.classOfLock.get? lock) := by
  cases call with
  | acquire t k s => cases h
  | acquireLabeled t k s label rank =>
    refine ⟨rfl, fun _ => ?_⟩
    exact congrArg (·.get? lock) (classOfLock_classForLabel r label)
  | mayAcquire t k s =>
    simp only [Ledger.lookup?] at h
    split at h
    · next hheld =>
      rw [hl.held_eq, List.map_eq_nil_iff] at hheld
      rw [perform, mayAcquire_of_eq_nil hheld]
      exact ⟨rfl, fun _ => rfl⟩
    · cases h
  | release t k =>
    obtain ⟨htells, hcache⟩ := r.release_tells t k
    exact ⟨htells lock, fun _ => congrArg (·.get? lock) hcache⟩
  | intern frames => exact ⟨rfl, fun _ => rfl⟩
  | name k label =>
    refine ⟨rfl, fun hother => ?_⟩
    have hk : k ≠ lock := by
      rintro rfl
      exact hother label rfl
    rw [perform, nameLock, Dictionary.get?_erase, if_neg hk]

/-! ### What a run tells -/

/-- While a lock has no label, its class is remembered from the first time that it was taken by its
own label. -/
theorem cached_iff_takenUnnamed (table : StackTable)
    (hunnamed : ∀ label, Call.name lock label ∉ calls) :
    ((empty table).run calls).classOfLock.get? lock ≠ none ↔ TakenUnnamed calls lock := by
  induction calls using List.reverseRecOn with
  | nil => simpa [run, empty] using Ledger.not_takenUnnamed_nil
  | append_singleton calls call ih =>
    have hbefore : ∀ label, Call.name lock label ∉ calls :=
      fun label hmem => hunnamed label (List.mem_append_left _ hmem)
    have hother : ∀ label, call ≠ .name lock label := by
      rintro label rfl
      exact hunnamed label (by simp)
    have hmirrors := mirrors_run table calls
    rw [run_concat, Ledger.takenUnnamed_concat, ← ih hbefore]
    cases hlookup : (Ledger.replay calls).lookup? call with
    | none =>
      rw [(perform_of_lookup?_eq_none hmirrors hlookup lock).2 hother]
      refine ⟨.inl, fun h => h.resolve_right ?_⟩
      rintro ⟨thread, stack, -, htakes⟩
      exact Option.some_ne_none _ (htakes.symm.trans hlookup)
    | some entry =>
      obtain ⟨thread, k, stack⟩ := entry
      rw [(perform_of_lookup? hmirrors hlookup).2, cached_classForLock]
      refine or_congr_right ⟨?_, ?_⟩
      · rintro rfl
        exact ⟨thread, stack, hbefore, hlookup⟩
      · rintro ⟨t, s, -, htakes⟩
        cases hlookup.symm.trans htakes
        rfl

/-- The first call that takes a lock before it has a label warns of it. -/
theorem perform_of_first (table : StackTable) (htakes : TakesUnnamed calls call thread lock stack)
    (hfirst : ¬ TakenUnnamed calls lock) :
    (((empty table).run calls).perform call).2 = [.unlabeledLock thread lock stack] := by
  have hmirrors := mirrors_run table calls
  have hcache : ((empty table).run calls).classOfLock.get? lock = none := by
    by_contra hsome
    exact hfirst ((cached_iff_takenUnnamed table htakes.unnamed).mp hsome)
  have hname : ((empty table).run calls).names.get? lock = none :=
    (hmirrors.names_eq lock).trans (Ledger.names_replay_eq_none_iff.mpr htakes.unnamed)
  rw [(perform_of_lookup? hmirrors htakes.lookup).1, events_classForLock, if_pos ⟨hcache, hname⟩]

/-- No other call does. -/
theorem countP_perform_of_not_first (table : StackTable)
    (hnot : TakenUnnamed calls lock ∨ ¬ ∃ thread stack, TakesUnnamed calls call thread lock stack) :
    (((empty table).run calls).perform call).2.countP (Event.warnsOf lock) = 0 := by
  have hmirrors := mirrors_run table calls
  cases hlookup : (Ledger.replay calls).lookup? call with
  | none => exact (perform_of_lookup?_eq_none hmirrors hlookup lock).1
  | some entry =>
    obtain ⟨thread, k, stack⟩ := entry
    rw [(perform_of_lookup? hmirrors hlookup).1, events_classForLock]
    split
    · next hwarns =>
      -- a warning is about the lock of the call, which then has no label and no class
      have hk : k ≠ lock := by
        rintro rfl
        have hunnamed := Ledger.names_replay_eq_none_iff.mp
          ((hmirrors.names_eq k).symm.trans hwarns.2)
        rcases hnot with htaken | hnot
        · exact (cached_iff_takenUnnamed table hunnamed).mpr htaken hwarns.1
        · exact hnot ⟨thread, stack, hunnamed, hlookup⟩
      simp [Event.warnsOf, hk]
    · rfl

/-- A run warns of a lock once if it takes the lock before the lock has a label, and never
otherwise. -/
theorem countP_events (table : StackTable) (calls : List Call) (lock : Nat) :
    (TakenUnnamed calls lock → ((empty table).events calls).countP (Event.warnsOf lock) = 1) ∧
      (¬ TakenUnnamed calls lock →
        ((empty table).events calls).countP (Event.warnsOf lock) = 0) := by
  induction calls using List.reverseRecOn with
  | nil => exact ⟨fun h => absurd h Ledger.not_takenUnnamed_nil, fun _ => rfl⟩
  | append_singleton calls call ih =>
    rw [events_concat, List.countP_append, Ledger.takenUnnamed_concat]
    by_cases hearlier : TakenUnnamed calls lock
    · rw [ih.1 hearlier, countP_perform_of_not_first table (.inl hearlier)]
      exact ⟨fun _ => rfl, fun hnot => absurd (.inl hearlier) hnot⟩
    · rw [ih.2 hearlier]
      refine ⟨fun htaken => ?_, fun hnot => ?_⟩
      · obtain ⟨thread, stack, htakes⟩ := htaken.resolve_left hearlier
        rw [perform_of_first table htakes hearlier]
        simp [Event.warnsOf]
      · rw [countP_perform_of_not_first table (.inr fun htakes => hnot (.inr htakes))]

/-- **A lock without a label is warned about once**, whatever the run, as long as the stacks that
come with its calls are in the table at that time. If the lock is taken by its own label before it
is given one, or might be taken by a thread that holds something, the run has one warning about it.
The first such call tells nothing else, and its warning shows the number of the lock and the stack
of the call. Otherwise the run has no warning about the lock. Asking for the recorded graph is no
occasion for one. -/
theorem unnamed_lock_warned_once (table : StackTable) (calls : List Call) (lock : Nat)
    (hstacks : ∀ before call after, calls = before ++ call :: after → ∀ stack ∈ call.stack?,
      ∀ pos ∈ stack.frames, ((empty table).run before).table.Holds pos) :
    let warnings := ((empty table).events calls).countP (Event.warnsOf lock)
    (TakenUnnamed calls lock → warnings = 1 ∧
      ∃ before call after thread stack text, calls = before ++ call :: after ∧
        TakesUnnamed before call thread lock stack ∧ ¬ TakenUnnamed before lock ∧
        let r := (empty table).run before
        let warning := Event.unlabeledLock thread lock stack
        (r.perform call).2 = [warning] ∧ warning.level = .warn ∧
          r.table.stackText stack = .ok text ∧ warning.message r.table =
            .ok ("acquired unlabeled lock " ++ Event.hexText lock ++ " at:\n" ++ text)) ∧
      (¬ TakenUnnamed calls lock → warnings = 0) ∧
      ∀ g, (finishEvent g).warnsOf lock = false := by
  intro warnings
  obtain ⟨hone, hzero⟩ := countP_events table calls lock
  refine ⟨fun htaken => ⟨hone htaken, ?_⟩, hzero, fun g => rfl⟩
  obtain ⟨before, call, after, thread, stack, hsplit, htakes, hfirst⟩ := htaken.exists_first
  have hstack := Ledger.stack?_of_lookup? htakes.lookup
  obtain ⟨text, htext⟩ :=
    StackTable.exists_stackText (hstacks before call after hsplit stack hstack)
  refine ⟨before, call, after, thread, stack, text, hsplit, htakes, hfirst,
    perform_of_first table htakes hfirst, rfl, htext, ?_⟩
  rw [Event.message, htext]
  rfl

/-- A lock that an idle thread might take, that is then taken with a label of its own, and only then
asked for; it is named later. Another lock is named before it is taken. -/
theorem unnamed_lock_warned_once_then_named :
    let a : Stack := ⟨[.resolved 0 0 7, .unresolved "?"]⟩
    let calls : List Call := [.intern [.inl ⟨"main", "f.c", 7⟩], .mayAcquire 1 5 a,
      .acquireLabeled 1 5 a "x" 0, .mayAcquire 1 5 a, .acquire 2 5 a, .name 5 "m",
      .acquire 2 5 a, .name 6 "n", .acquire 1 6 a]
    TakenUnnamed calls 5 ∧ ¬ TakenUnnamed calls 6 ∧
      ((empty .empty).events calls).countP (Event.warnsOf 5) = 1 ∧
      ((empty .empty).events calls).countP (Event.warnsOf 6) = 0 := by
  intro a calls
  -- a call of the run stands at one of nine places
  have hplace : ∀ {before call after}, calls = before ++ call :: after →
      before.length < 9 ∧ calls.take before.length = before ∧
        calls[before.length]? = some call := by
    intro before call after hsplit
    have hlength : 9 = before.length + (after.length + 1) := by
      simpa [calls] using congrArg List.length hsplit
    refine ⟨by omega, ?_, ?_⟩
    · rw [hsplit, List.take_left]
    · rw [hsplit, List.getElem?_append_right (Nat.le_refl _), Nat.sub_self, List.getElem?_cons_zero]
  have hstacks : ∀ before call after, calls = before ++ call :: after → ∀ stack ∈ call.stack?,
      ∀ pos ∈ stack.frames, ((empty .empty).run before).table.Holds pos := by
    intro before call after hsplit stack hstack pos hpos
    obtain ⟨hlt, htake, hcall⟩ := hplace hsplit
    have hchecked : ∀ i < 9, ∀ call ∈ calls[i]?, ∀ stack ∈ call.stack?, ∀ pos ∈ stack.frames,
        ((empty .empty).run (calls.take i)).table.check pos = .ok () := by decide
    have hcheck := hchecked _ hlt call hcall stack hstack pos hpos
    rw [htake] at hcheck
    exact StackTable.check_eq_ok_iff.mp hcheck
  have htaken : TakenUnnamed calls 5 :=
    ⟨calls.take 3, .mayAcquire 1 5 a, calls.drop 4, 1, a, rfl, by simp [calls], by decide⟩
  have hnot : ¬ TakenUnnamed calls 6 := by
    intro htaken
    obtain ⟨before, call, after, hsplit, hnone, thread, stack, hlookup⟩ :=
      Ledger.takenUnnamed_iff_atSomeCall.mp htaken
    obtain ⟨hlt, htake, hcall⟩ := hplace hsplit
    have hnamed : ∀ i < 9, ∀ call ∈ calls[i]?, (Ledger.replay (calls.take i)).names 6 = none →
        ∀ entry ∈ (Ledger.replay (calls.take i)).lookup? call, entry.2.1 ≠ 6 := by decide
    rw [← htake] at hnone hlookup
    exact hnamed _ hlt call hcall hnone _ hlookup rfl
  obtain ⟨hone, _, _⟩ := unnamed_lock_warned_once .empty calls 5 hstacks
  obtain ⟨_, hzero, _⟩ := unnamed_lock_warned_once .empty calls 6 hstacks
  exact ⟨htaken, hnot, (hone htaken).1, hzero hnot⟩

end Recorder

end LockOrder
