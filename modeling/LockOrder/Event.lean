import LockOrder.Stack.Table

/-!
# Log events

The library tells what it does through a list of events. An event is kept as data; its level,
text and fields are functions of it, so that nothing is rendered unless somebody looks.

## Main definitions

* `Event` — what can be logged
* `Event.level`, `Event.topic` — how important it is, and what it is about
* `Event.message`, `Event.fields` — its text and its named numbers
-/

namespace LockOrder

/-- How important an event is. -/
inductive Level where
  /-- Somebody should look. -/
  | warn
  /-- A milestone. -/
  | debug
  /-- A detail. -/
  | trace
deriving DecidableEq, Repr

/-- The part of the library that an event is about. -/
inductive Topic where
  /-- Recording of acquisitions. -/
  | recorder
  /-- Cycle analysis. -/
  | cycles
  /-- The text report. -/
  | textReport
  /-- Dumps. -/
  | dump
deriving DecidableEq, Repr

/-- Something worth logging. -/
inductive Event where
  /-- A lock without a name was taken, with this stack. -/
  | unlabeledLock (thread lock : Nat) (stack : Stack)
  /-- A thread that never took a lock released one. -/
  | releaseByStranger (thread lock : Nat)
  /-- A thread released a lock that it did not hold. -/
  | releaseNotHeld (thread lock : Nat)
  /-- A lock graph was made from what was recorded. -/
  | finished (nodes edges stackPairs : Nat)
  /-- The cycle analysis has ended. -/
  | cyclesFound (nodes edges components : Nat)
  /-- The text report starts with a component. -/
  | walkingComponent (component size start : Nat)
  /-- A dump was written. -/
  | dumped (nodes edges stackPairs : Nat)
  /-- A dump was read. -/
  | loaded (bytes nodes edges : Nat)
deriving DecidableEq, Repr

namespace Event

/-- How important an event is. -/
def level : Event → Level
  | .unlabeledLock .. | .releaseByStranger .. | .releaseNotHeld .. => .warn
  | .walkingComponent .. => .trace
  | .finished .. | .cyclesFound .. | .dumped .. | .loaded .. => .debug

/-- What an event is about. -/
def topic : Event → Topic
  | .unlabeledLock .. | .releaseByStranger .. | .releaseNotHeld .. | .finished .. => .recorder
  | .cyclesFound .. => .cycles
  | .walkingComponent .. => .textReport
  | .dumped .. | .loaded .. => .dump

/-- A number as `0x` and lowercase hexadecimal digits. -/
def hexText (n : Nat) : String := "0x" ++ String.ofList (Text.hexDigits n)

theorem hexText_eq (n : Nat) : hexText n = "0x" ++ String.ofList (Nat.toDigits 16 n) := by
  rw [hexText, Text.hexDigits_eq_toDigits]

/-- The text of an event. Stacks are rendered with `table`. -/
def message (table : StackTable) : Event → Except Fault String
  | .unlabeledLock _ lock stack => do
    return "acquired unlabeled lock " ++ hexText lock ++ " at:\n" ++ (← table.stackText stack)
  | .releaseByStranger .. => .ok "release by a thread that never acquired anything"
  | .releaseNotHeld .. => .ok "release of a lock that is not held"
  | .finished .. => .ok "finished lock graph"
  | .cyclesFound .. => .ok "cycle detection done"
  | .walkingComponent .. => .ok "walking component"
  | .dumped .. => .ok "dumped lock graph"
  | .loaded .. => .ok "loaded lock graph"

/-- The named numbers of an event. -/
def fields : Event → List (String × Nat)
  | .unlabeledLock thread _ _ => [("thread", thread)]
  | .releaseByStranger thread lock | .releaseNotHeld thread lock =>
    [("thread", thread), ("lock_id", lock)]
  | .finished nodes edges stackPairs | .dumped nodes edges stackPairs =>
    [("nodes", nodes), ("edges", edges), ("stack_pairs", stackPairs)]
  | .cyclesFound nodes edges components =>
    [("nodes", nodes), ("edges", edges), ("components", components)]
  | .walkingComponent component size start =>
    [("component", component), ("size", size), ("start", start)]
  | .loaded bytes nodes edges => [("bytes", bytes), ("nodes", nodes), ("edges", edges)]

end Event

end LockOrder
