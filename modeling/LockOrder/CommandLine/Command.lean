import LockOrder.CommandLine.Arguments
import LockOrder.EdgeId

/-!
# Commands

The command line names one of five things to do with the graph of a dump. Where a report has
settings, they come from the file that `--config` names, else from the one that the environment
names.

## Main definitions

* `CommandLine.Command` — what to do
* `CommandLine.Command.parse` — what the command line asks for
-/

namespace LockOrder.CommandLine

/-- What to do with the graph of a dump. A dump is named by its path. -/
inductive Command where
  /-- Writes the text report of the edges on cycles, or of all edges. -/
  | report (dump : String) (all : Bool) (settings : Option String)
  /-- Writes the nodes and edges on cycles that avoid the excluded edges. -/
  | cycles (dump : String) (excluded : List EdgeId)
  /-- Draws the calls behind an edge. -/
  | edgeDot (dump : String) (edge : EdgeId) (settings : Option String)
  /-- Draws the graph, or the part of it on cycles. -/
  | graphDot (dump : String) (cyclesOnly : Bool) (settings : Option String)
  /-- Writes a few counts. -/
  | stats (dump : String)
deriving DecidableEq, Repr

namespace Command

/-- The path of the dump. -/
def dump : Command → String
  | .report dump .. | .cycles dump _ | .edgeDot dump .. | .graphDot dump .. | .stats dump => dump

/-- The path of the settings. -/
def settings : Command → Option String
  | .report _ _ settings | .edgeDot _ _ settings | .graphDot _ _ settings => settings
  | .cycles .. | .stats _ => none

/-- A path, which cannot be empty. -/
def pathOf (text : String) : Except Misuse String :=
  if text.isEmpty then .error .emptyPath else .ok text

/-- The edge of the given name. -/
def edgeOf (text : String) : Except Misuse EdgeId :=
  (EdgeId.parse text).mapError fun flaw => .malformedEdge flaw.message

/-- The path of the settings: the option, which may be given once, or else what the environment
says. -/
def settingsOf (env : Option String) (args : Arguments) : Except Misuse (Option String) :=
  match args.valuesOf "config" with
  | [] => env.mapM pathOf
  | [path] => some <$> pathOf path
  | _ => .error (.repeated "config")

/-- The only positional argument, the path of the dump. -/
def dumpOf (args : Arguments) : Except Misuse String :=
  match args.positional with
  | [] => .error .argumentMissing
  | [path] => pathOf path
  | _ :: text :: _ => .error (.argumentUnwanted text)

/-- The two positional arguments, the path of the dump and the name of an edge. -/
def dumpAndEdgeOf (args : Arguments) : Except Misuse (String × EdgeId) :=
  match args.positional with
  | [] | [_] => .error .argumentMissing
  | [path, edge] => do return (← pathOf path, ← edgeOf edge)
  | _ :: _ :: text :: _ => .error (.argumentUnwanted text)

/-- The excluded edges: each value is a list of names with commas between them. -/
def excludedOf (args : Arguments) : Except Misuse (List EdgeId) :=
  ((args.valuesOf "exclude").flatMap fun value => value.splitOn ",").mapM edgeOf

/-- What the command line asks for, where `env` is the path of the settings in the environment. -/
def parse (env : Option String) : List String → Except Misuse Command
  | [] => .error .noCommand
  | "report" :: rest => do
    let args ← Arguments.parse ⟨["all"], ["config"]⟩ rest
    return .report (← dumpOf args) (args.flags.contains "all") (← settingsOf env args)
  | "cycles" :: rest => do
    let args ← Arguments.parse ⟨[], ["exclude"]⟩ rest
    return .cycles (← dumpOf args) (← excludedOf args)
  | "edge-dot" :: rest => do
    let args ← Arguments.parse ⟨[], ["config"]⟩ rest
    let (dump, edge) ← dumpAndEdgeOf args
    return .edgeDot dump edge (← settingsOf env args)
  | "graph-dot" :: rest => do
    let args ← Arguments.parse ⟨["cycles-only"], ["config"]⟩ rest
    return .graphDot (← dumpOf args) (args.flags.contains "cycles-only") (← settingsOf env args)
  | "stats" :: rest => do
    let args ← Arguments.parse ⟨[], []⟩ rest
    return .stats (← dumpOf args)
  | name :: _ => .error (.unknownCommand name)

end Command

end LockOrder.CommandLine
