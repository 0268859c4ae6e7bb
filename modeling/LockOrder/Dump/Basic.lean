import LockOrder.Deflate.Inflate
import LockOrder.Dump.Delivery
import LockOrder.Error
import LockOrder.Event
import LockOrder.Graph.Json

/-!
# Dumps

A dump carries a lock graph as plain text: the JSON text of the graph, compressed, in base64. ASCII
white space in it means nothing, so that a dump may be wrapped and pasted. A graph that was read is
checked before anybody sees it.

## Main definitions

* `Dump.write` — the dump of a graph
* `Dump.save` — the same into a place of limited size
* `Dump.load` — the graph of a dump
-/

namespace LockOrder.Dump

/-- What a stream yields when it is read to its end, or why it cannot be. -/
abbrev Source := Except String (List UInt8)

/-- Whether an octet is ASCII white space. -/
def isBlank (b : UInt8) : Bool := b = 0x20 || b = 0x09 || b = 0x0A || b = 0x0C || b = 0x0D

/-- The dump of a graph. -/
def write (g : Graph) : List UInt8 := Base64.encode (Deflate.store g.json.toUTF8.toList)

/-- The dump of a graph for a place that takes no more octets than `limit`, with what to log about
it. -/
def save (limit : Option Nat) (g : Graph) : Except Error (List UInt8 × Event) :=
  let text := write g
  match limit with
  | some n =>
    if n < text.length then .error (.stream "closed")
    else .ok (text, .dumped g.nodeCount g.edgeCount g.stackPairCount)
  | none => .ok (text, .dumped g.nodeCount g.edgeCount g.stackPairCount)

/-- The JSON text in a dump, as far as it can be had. -/
def contents (text : List UInt8) : Json.Feed := feedOf (text.filter fun b => !isBlank b)

/-- The graph of a dump, with what to log about it. -/
def load (source : Source) : Except Error (Graph × Event) := do
  let text ← source.mapError Error.stream
  let dense := text.filter fun b => !isBlank b
  let g ← (Json.decodeFeed Graph.read (feedOf dense)).mapError Error.ofFlaw
  g.check.mapError Error.graph
  return (g, .loaded dense.length g.nodeCount g.edgeCount)

end LockOrder.Dump
