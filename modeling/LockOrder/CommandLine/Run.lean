import LockOrder.CommandLine.Command
import LockOrder.Digraph.Exclusion
import LockOrder.Dump.Basic
import LockOrder.Graph.Edit
import LockOrder.Report.CallGraph
import LockOrder.Report.Text

/-!
# Running a command

A command turns the dump and the settings that it names into text. The settings are read first, so
that of two bad files theirs is the one that is reported.

## Main definitions

* `CommandLine.Surroundings` — the files and the standard input
* `CommandLine.Failure` — why a command fails
* `CommandLine.Command.run` — the text that a command writes
* `CommandLine.Outcome`, `CommandLine.runLine` — what a whole command line comes to
-/

namespace LockOrder

/-- The nodes and edges on cycles as indented JSON text. -/
def CycleSet.document (set : CycleSet) : String :=
  Json.indentedObject "" [
    ("nodes", Json.indentedArray "  " (set.nodes.map fun node => Json.quote (nodeName node))),
    ("edges", Json.indentedArray "  " (set.edges.map fun edge => Json.quote edge.text))]

namespace CommandLine

/-- What a command can read. -/
structure Surroundings where
  /-- The contents of the file of the given path. -/
  file : String → Dump.Source
  /-- The standard input. -/
  input : Dump.Source

/-- Why a command fails. -/
inductive Failure where
  /-- Data from outside is refused. -/
  | refused (cause : Error)
  /-- A graph of so many nodes does not have the edge. -/
  | noSuchEdge (edge : EdgeId) (nodes : Nat)
  /-- A contract was broken. -/
  | broken (fault : Fault)

namespace Failure

/-- The layer that refused data from outside. -/
def layer? : Failure → Option Layer
  | .refused cause => some cause.layer
  | .noSuchEdge .. | .broken _ => none

/-- What is wrong, in full. -/
def detail : Failure → String
  | .refused cause =>
    cause.kind.name ++ "(ErrorDetails \x7b layer: " ++ cause.layer.name ++ ", message: " ++
      Text.quoted cause.message ++ " \x7d)"
  | .noSuchEdge edge nodes =>
    Text.quoted
      ("no such edge " ++ edge.text ++ " in a graph of " ++ Text.decimal nodes ++ " nodes")
  | .broken fault => Text.quoted fault.message

end Failure

namespace Surroundings

/-- The settings in the file of the given path, or the usual ones if there is none. -/
def settings (around : Surroundings) : Option String → Except Error Settings
  | none => .ok {}
  | some path => do
    let bytes ← (around.file path).mapError (Error.settingsFile path)
    match String.fromUTF8? ⟨bytes.toArray⟩ with
    | some text => Settings.parse text
    | none => .error (.settingsFile path "stream did not contain valid UTF-8")

/-- The graph in the dump of the given path, where `-` stands for the standard input. -/
def graph (around : Surroundings) (path : String) : Except Error Graph := do
  let source := if path = "-" then around.input else around.file path
  return (← Dump.load source).1

end Surroundings

/-- Refuses an edge that a graph does not have. -/
def checkEdge (g : Graph) (edge : EdgeId) : Except Failure Unit :=
  if edge.node < g.nodeCount then do
    -- in a graph that was not checked, a node may be without a list of targets
    let targets ← (g.out edge.node).mapError Failure.broken
    if edge.edge < targets.length then .ok () else .error (.noSuchEdge edge g.nodeCount)
  else .error (.noSuchEdge edge g.nodeCount)

/-- The lines of the counts of a graph. -/
def statistics (g : Graph) (set : CycleSet) : String :=
  "nodes: " ++ Text.decimal g.nodeCount ++ "\n" ++
  "edges: " ++ Text.decimal g.edgeCount ++ "\n" ++
  "stack pairs: " ++ Text.decimal g.stackPairCount ++ "\n" ++
  "files: " ++ Text.decimal g.table.files.size ++ "\n" ++
  "funcs: " ++ Text.decimal g.table.funcs.size ++ "\n" ++
  "nodes on cycles: " ++ Text.decimal set.nodes.length ++ "\n" ++
  "edges on cycles: " ++ Text.decimal set.edges.length ++ "\n"

/-- The text of a command on a graph that was read, under the given settings. -/
def Command.apply (g : Graph) (settings : Settings) : Command → Except Failure String
  | .report _ all _ => do
    let shown ← (if all then .ok g else g.cycleGraph).mapError Failure.broken
    (Report.textReport settings shown).text.mapError .broken
  | .cycles _ excluded => do
    excluded.forM (checkEdge g)
    let view ← (g.digraph.exclude excluded).mapError Failure.broken
    let (set, _) ← view.survey.mapError Failure.broken
    return set.document ++ "\n"
  | .edgeDot _ edge _ => do
    checkEdge g edge
    let evidence ← (g.edgeAt edge).mapError Failure.broken
    (Report.edgeDot settings g.table .function evidence).text.mapError .broken
  | .graphDot _ cyclesOnly _ => do
    let shown ← (if cyclesOnly then g.cycleGraph else .ok g).mapError Failure.broken
    (Report.graphDot settings shown).text.mapError .broken
  | .stats _ => do
    let set ← g.cycles.mapError Failure.broken
    return statistics g set

/-- The text that a command writes. -/
def Command.run (around : Surroundings) (command : Command) : Except Failure String := do
  let settings ← (around.settings command.settings).mapError Failure.refused
  let g ← (around.graph command.dump).mapError Failure.refused
  command.apply g settings

/-- What a command line comes to. -/
inductive Outcome where
  /-- The text that was asked for. -/
  | text (output : String)
  /-- The command failed. -/
  | failed (failure : Failure)
  /-- The command line cannot be understood. -/
  | misused (misuse : Misuse)

/-- The exit code of the program. -/
def Outcome.exitCode : Outcome → UInt32
  | .text _ => 0
  | .failed (.broken _) => 101
  | .failed _ => 1
  | .misused _ => 2

/-- What a command line comes to, where `env` is the path of the settings in the environment. -/
def runLine (around : Surroundings) (env : Option String) (args : List String) : Outcome :=
  match Command.parse env args with
  | .error misuse => .misused misuse
  | .ok command =>
    match command.run around with
    | .ok output => .text output
    | .error failure => .failed failure

end CommandLine

end LockOrder
