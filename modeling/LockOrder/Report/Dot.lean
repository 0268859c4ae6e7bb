import LockOrder.Graph.Basic
import LockOrder.Report.Script
import LockOrder.Settings

/-!
# Drawings of lock graphs

A lock graph is drawn in the DOT language: a statement for each node and each edge, with their
names as identifiers.

## Main definitions

* `Report.dotString` — quoted text in DOT
* `Report.graphDot` — the drawing of a lock graph
-/

namespace LockOrder.Report

/-- How quoted text in DOT shows a character. -/
def dotEscape (c : Char) : List Char :=
  match c with
  | '"' => ['\\', '"']
  | '\\' => ['\\', '\\']
  | '\n' => ['\\', 'n']
  | c => [c]

/-- Quoted text in DOT. -/
def dotString (s : String) : String :=
  String.ofList ('"' :: s.toList.flatMap dotEscape ++ ['"'])

/-- The first line of a drawing. -/
def dotOpening : String := "digraph \"\" \x7b"

/-- The last line of a drawing. -/
def dotClosing : String := "\x7d"

/-- The statement of a node. -/
def nodeLine (settings : Settings) (g : Graph) (node : Nat) : Except Fault String := do
  return "  " ++ nodeName node ++ " [label=" ++
    dotString (← g.labelAt settings.labelStart node) ++ ",id=" ++ dotString (nodeName node) ++ "];"

/-- The statement of an edge. -/
def edgeLine (g : Graph) (e : EdgeId) : Except Fault String := do
  return "  " ++ nodeName e.node ++ " -> " ++ nodeName (← g.targetAt e) ++ " [id=" ++
    dotString e.text ++ "];"

/-- The drawing of a lock graph. -/
def graphDot (settings : Settings) (g : Graph) : Script :=
  .line dotOpening ::
    (List.range g.nodeCount).map (fun node => .ofLine (nodeLine settings g node)) ++
    g.edgeIds.map (fun e => .ofLine (edgeLine g e)) ++
    [.line dotClosing]

end LockOrder.Report
