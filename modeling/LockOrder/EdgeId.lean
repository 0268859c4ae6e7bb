import LockOrder.Number.Basic
import LockOrder.Text.Character

/-!
# Names of nodes and edges

A lock graph addresses a node by its index and an edge by its source node and its position
among that node's out-edges. Reports and commands write the edge at position `j` of node `k`
as `e<k>-<j>` and the node itself as `n<k>`.

## Main definitions

* `EdgeId` — the address of an edge
* `EdgeId.text`, `nodeName` — the written names
* `EdgeId.parse` — reads a name back, or says what is wrong with it
* `EdgeId.Flaw` — what can be wrong with a written name
-/

namespace LockOrder

/-- The address of an edge: its source node and its position among the out-edges there. -/
structure EdgeId where
  /-- The source node. -/
  node : Nat
  /-- The position among the source's out-edges. -/
  edge : Nat
deriving DecidableEq, Repr, Inhabited

/-- The written name of a node. -/
def nodeName (node : Nat) : String := "n" ++ Text.decimal node

namespace EdgeId

/-- The written name of an edge. -/
def text (e : EdgeId) : String := "e" ++ Text.decimal e.node ++ "-" ++ Text.decimal e.edge

instance : ToString EdgeId := ⟨text⟩

/-- What is wrong with a text that should name an edge. -/
inductive Flaw where
  /-- It is not an `e`, digits, a hyphen and digits. -/
  | shape (given : String)
  /-- One of its digits is not an ASCII digit. -/
  | digit (given : String)
  /-- One of its numbers is above the largest index. -/
  | size (given : String)
deriving DecidableEq, Repr

/-- The message of a flaw. -/
def Flaw.message : Flaw → String
  | .shape given => s!"malformed edge ID: {Text.quoted given}"
  | .digit given => s!"edge ID {Text.quoted given}: invalid digit found in string"
  | .size given => s!"edge ID {Text.quoted given}: number too large to fit in target type"

/-- Splits the text of an edge name into the digits of its node and of its position. Any
script's digits are taken here. -/
def split? (cs : List Char) : Option (List Char × List Char) :=
  match cs with
  | 'e' :: rest =>
    let node := rest.takeWhile Text.isDecimalDigit
    match rest.dropWhile Text.isDecimalDigit with
    | '-' :: edge =>
      if !node.isEmpty && !edge.isEmpty && edge.all Text.isDecimalDigit then some (node, edge)
      else none
    | _ => none
  | _ => none

/-- Reads one number of an edge name. Digits are read from the left, so the first of a foreign
digit and an excess decides. -/
def readIndex (given : String) (acc : Nat) : List Char → Except Flaw Nat
  | [] => .ok acc
  | c :: cs =>
    match Text.digitValue? c with
    | none => .error (.digit given)
    | some d =>
      if acc * 10 + d < wordBound then readIndex given (acc * 10 + d) cs
      else .error (.size given)

/-- Reads an edge name; the node is read before the position. -/
def parse (given : String) : Except Flaw EdgeId := do
  match split? given.toList with
  | none => .error (.shape given)
  | some (node, edge) =>
    let node ← readIndex given 0 node
    let edge ← readIndex given 0 edge
    return ⟨node, edge⟩

end EdgeId

end LockOrder
