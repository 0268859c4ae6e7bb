import LockOrder.Event

/-!
# Report scripts

A report is made as a *script*: the lines to write and the events to log, in order, up to the
first fault. Running a script against a writer gives its text. A writer may have a limit, and a
line that does not fit ends the report before any later step.

## Main definitions

* `Script` — what a report does
* `Script.run` — the events and the text of a report, for a writer with or without a limit
* `Script.text` — the text of a report
-/

namespace LockOrder

/-- A step of a report. -/
inductive Step where
  /-- Logs an event. -/
  | log (event : Event)
  /-- Writes a line. -/
  | line (text : String)
  /-- Ends the report. -/
  | fault (fault : Fault)
deriving DecidableEq, Repr

/-- The steps of a report in order. -/
abbrev Script := List Step

/-- Writes a line, or ends the report if it cannot be made. -/
def Step.ofLine : Except Fault String → Step
  | .ok text => .line text
  | .error f => .fault f

namespace Script

/-- Why a report ended early. -/
inductive Stop where
  /-- A contract was broken. -/
  | fault (fault : Fault)
  /-- The writer takes no more. -/
  | full
deriving DecidableEq, Repr

/-- Runs a script against a writer that has taken `written` and takes `limit` bytes in all. The
result holds the events logged, the latest first, after `events`. -/
def runFrom (limit : Option Nat) (events : List Event) (written : String) :
    Script → List Event × Except Stop String
  | [] => (events, .ok written)
  | .log event :: rest => runFrom limit (event :: events) written rest
  | .fault f :: _ => (events, .error (.fault f))
  | .line text :: rest =>
    let written := written ++ text ++ "\n"
    match limit with
    | some bytes =>
      if bytes < written.utf8ByteSize then (events, .error .full)
      else runFrom limit events written rest
    | none => runFrom limit events written rest

/-- The events that a report logs, and its text. -/
def run (limit : Option Nat) (script : Script) : List Event × Except Stop String :=
  let (events, result) := runFrom limit [] "" script
  (events.reverse, result)

/-- The text of a report, or the fault that ends it. -/
def text : Script → Except Fault String
  | [] => .ok ""
  | .log _ :: rest => text rest
  | .fault f :: _ => .error f
  | .line line :: rest => do return line ++ "\n" ++ (← text rest)

end Script

end LockOrder
