import LockOrder.Event
import LockOrder.Recorder.Evidence

/-!
# Recording acquisitions

A recorder follows the locks of a running program. Locks belong to *classes* named by labels;
all locks with one label are one class. A lock may be given a label at any time, and a lock that
is taken without one has its own class, labelled by its number.

Whenever a thread takes a lock, the recorder notes an edge from the class of each lock that the
thread holds to the class of the new one, with the two stacks. A lock may carry a rank: locks of
one class may be taken in the order of rising rank, so such an acquisition is not noted.

## Main definitions

* `Recorder` — what was recorded so far
* `Recorder.nameLock` — gives a lock its label
* `Recorder.acquire`, `Recorder.acquireLabeled`, `Recorder.mayAcquire` — a lock is taken, or may be
* `Recorder.release` — a lock is given back
* `Recorder.heldCount` — how many locks a thread holds
-/

namespace LockOrder

/-- A lock that a thread holds. -/
structure Held where
  /-- The lock. -/
  lock : Nat
  /-- The class that it was taken under. -/
  lockClass : Nat
  /-- Its rank in that class. -/
  rank : Nat
  /-- Where it was taken. -/
  stack : Stack
deriving DecidableEq, Repr, Inhabited

/-- A class of locks. -/
structure LockClass where
  /-- Its label. -/
  label : String
  /-- The evidence for its out-edges, by target class. -/
  out : Dictionary Nat Evidence
deriving DecidableEq, Repr, Inhabited

/-- What was recorded so far. -/
structure Recorder where
  /-- The names that stacks refer to. -/
  table : StackTable
  /-- The locks that each thread holds. A thread stays here once it has taken a lock. -/
  threads : Dictionary Nat (List Held)
  /-- The labels given to locks. -/
  names : Dictionary Nat String
  /-- The class of each lock that was taken by its own label. -/
  classOfLock : Dictionary Nat Nat
  /-- The classes, in the order in which they first came. -/
  classes : Array LockClass
  /-- The class of each label. -/
  classOfLabel : Dictionary String Nat
deriving DecidableEq, Repr, Inhabited

/-- A list without its element at a position, whose place the last element takes. -/
def swapRemove {α : Type} (xs : List α) (i : Nat) : List α :=
  match xs.getLast? with
  | some last => (xs.set i last).dropLast
  | none => xs

namespace Recorder

/-- Nothing recorded, over a stack table. -/
def empty (table : StackTable) : Recorder :=
  ⟨table, .empty, .empty, .empty, #[], .empty⟩

/-- The locks that a thread holds. -/
def heldBy (r : Recorder) (thread : Nat) : List Held := (r.threads.get? thread).getD []

/-- The number of locks that a thread holds. -/
def heldCount (r : Recorder) (thread : Nat) : Nat := (r.heldBy thread).length

/-- Gives a lock its label. The class that it had before is forgotten. -/
def nameLock (r : Recorder) (lock : Nat) (label : String) : Recorder :=
  { r with names := r.names.insert lock label, classOfLock := r.classOfLock.erase lock }

/-- The class of a label, made if there is none. -/
def classForLabel (r : Recorder) (label : String) : Nat × Recorder :=
  match r.classOfLabel.get? label with
  | some c => (c, r)
  | none =>
    (r.classes.size,
      { r with
        classes := r.classes.push ⟨label, .empty⟩
        classOfLabel := r.classOfLabel.insert label r.classes.size })

/-- The class of a lock that is taken by its own label. A lock without a label has its number
for one, and is warned about the first time. -/
def classForLock (r : Recorder) (thread lock : Nat) (stack : Stack) :
    Nat × Recorder × List Event :=
  match r.classOfLock.get? lock with
  | some c => (c, r, [])
  | none =>
    let (label, events) :=
      match r.names.get? lock with
      | some label => (label, [])
      | none => (Event.hexText lock, [.unlabeledLock thread lock stack])
    let (c, r) := r.classForLabel label
    (c, { r with classOfLock := r.classOfLock.insert lock c }, events)

/-- Notes that `new` was taken while `held` was held. Inside one class, a rise in rank is not
noted. -/
def noteEdge (classes : Array LockClass) (held new : Held) : Array LockClass :=
  if held.lockClass = new.lockClass ∧ held.rank < new.rank then classes
  else
    classes.modify held.lockClass fun c =>
      let evidence := (c.out.get? new.lockClass).getD .empty
      { c with out := c.out.insert new.lockClass (evidence.add held.stack new.stack) }

/-- Notes that `new` was taken while all of `held` were held, in order. -/
def noteEdges (classes : Array LockClass) (held : List Held) (new : Held) : Array LockClass :=
  held.foldl (fun classes h => noteEdge classes h new) classes

/-- A thread takes a lock and holds it from now on. -/
def take (r : Recorder) (thread : Nat) (new : Held) : Recorder :=
  let held := r.heldBy thread
  { r with
    classes := noteEdges r.classes held new
    threads := r.threads.insert thread (held ++ [new]) }

/-- A thread takes a lock of the class of its label. -/
def acquire (r : Recorder) (thread lock : Nat) (stack : Stack) : Recorder × List Event :=
  let (c, r, events) := r.classForLock thread lock stack
  (r.take thread ⟨lock, c, 0, stack⟩, events)

/-- A thread takes a lock whose class and rank are given. -/
def acquireLabeled (r : Recorder) (thread lock : Nat) (stack : Stack) (label : String)
    (rank : Nat) : Recorder :=
  let (c, r) := r.classForLabel label
  r.take thread ⟨lock, c, rank, stack⟩

/-- A thread might take a lock: the edges are noted, and nothing is held. A thread that holds
nothing has no edges to note. -/
def mayAcquire (r : Recorder) (thread lock : Nat) (stack : Stack) : Recorder × List Event :=
  match r.heldBy thread with
  | [] => (r, [])
  | held =>
    let (c, r, events) := r.classForLock thread lock stack
    ({ r with classes := noteEdges r.classes held ⟨lock, c, 0, stack⟩ }, events)

/-- A thread gives a lock back: the first entry for that lock goes, and the latest takes its
place. A release without an acquisition changes nothing and is warned about. -/
def release (r : Recorder) (thread lock : Nat) : Recorder × List Event :=
  match r.threads.get? thread with
  | none => (r, [.releaseByStranger thread lock])
  | some held =>
    match held.findIdx? fun h => h.lock = lock with
    | some i => ({ r with threads := r.threads.insert thread (swapRemove held i) }, [])
    | none => (r, [.releaseNotHeld thread lock])

/-- Interns a stack whose frames are given by names, or by the text of an unresolved frame. -/
def internStack (r : Recorder) (frames : List (SourceLine ⊕ String)) : Stack × Recorder :=
  let (stack, table) := r.table.stackOfFrames frames
  (stack, { r with table := table })

end Recorder

end LockOrder
