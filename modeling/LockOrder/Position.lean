import LockOrder.EdgeId

/-!
# Faults and positions

A *fault* is a call that breaks the contract of the operation it calls: an index past the end
of a list, an edge between nodes that do not exist, a projection onto nodes that leaves an
edge without its ends. Data from outside is refused with an error before it can cause one; a
fault shows a mistake of the caller, and ends the operation that meets it.

Nodes, edges and strings are addressed by their position. This file reads a position, looks for
the position of a value, and sorts values into lists by a key.

## Main definitions

* `Fault` — the ways a call can break a contract
* `Fault.message` — what is reported
* `listAt`, `arrayAt` — the element at a position, or a fault
* `lastIndex?` — the last position of a value
* `buckets` — values collected under a key
-/

namespace LockOrder

/-! ### Faults -/

/-- A broken contract. -/
inductive Fault where
  /-- A position past the end of a list of the given length. -/
  | index (length position : Nat)
  /-- A position past the end of a string table of the given size. -/
  | stringIndex (size position : Nat)
  /-- A new edge whose ends are not both among the nodes. -/
  | edgeOutside (source target nodes : Nat)
  /-- A projection that keeps an edge and drops its source. -/
  | sourceDropped (edge : EdgeId)
  /-- A projection that keeps an edge and drops its target. -/
  | targetDropped (edge : EdgeId) (target : Nat)
deriving DecidableEq, Repr

namespace Fault

/-- What is reported for a fault. -/
def message : Fault → String
  | .index length position =>
    s!"index out of bounds: the len is {length} but the index is {position}"
  | .stringIndex size position =>
    s!"string table index {position} out of range (table has {size} strings)"
  | .edgeOutside source target nodes =>
    s!"edge {source} -> {target} outside of graph with {nodes} nodes"
  | .sourceDropped edge => s!"filter: source of edge {edge} is not in the node set"
  | .targetDropped edge target =>
    s!"filter: target {nodeName target} of edge {edge} is not in the node set"

end Fault

/-! ### Positions -/

variable {α : Type}

/-- The element at a position of a list. -/
def listAt (xs : List α) (position : Nat) : Except Fault α :=
  match xs[position]? with
  | some x => .ok x
  | none => .error (.index xs.length position)

/-- The element at a position of an array. -/
def arrayAt (xs : Array α) (position : Nat) : Except Fault α :=
  match xs[position]? with
  | some x => .ok x
  | none => .error (.index xs.size position)

/-- The last position of `a` in a list. -/
def lastIndex? [DecidableEq α] (a : α) : List α → Option Nat
  | [] => none
  | x :: xs =>
    match lastIndex? a xs with
    | some i => some (i + 1)
    | none => if x = a then some 0 else none

/-- The values of `pairs` sorted into `size` lists by their key, each list in the order of
`pairs`. Keys past the end are dropped. -/
def buckets (size : Nat) (pairs : List (Nat × α)) : Array (List α) :=
  pairs.foldr (fun pair lists => lists.modify pair.1 (pair.2 :: ·)) (Array.replicate size [])

end LockOrder
