import LockOrder.Dictionary
import LockOrder.Graph.Basic

/-!
# Evidence

Every time a lock is taken while another is held, the stacks of the two acquisitions are noted.
Evidence is the set of such pairs with the number of times each was seen. To find a pair fast,
pairs are sorted into buckets by a hash of their stacks; the hash decides only where to look,
never whether two pairs are equal.

## Main definitions

* `Evidence` — the pairs seen so far
* `Evidence.addWith` — one more sighting, with a given hash function
* `Evidence.add` — the same, with the hash of stacks
* `Evidence.toEdge` — the pairs by falling count
-/

namespace LockOrder

/-- Pairs of stacks with their counts, in the order in which they were first seen. -/
structure Evidence where
  /-- The pairs. -/
  pairs : Array StackPair
  /-- The positions of the pairs with a given hash. -/
  buckets : Dictionary UInt64 (List Nat)
deriving DecidableEq, Repr, Inhabited

namespace Evidence

/-- Nothing seen yet. -/
def empty : Evidence := ⟨#[], .empty⟩

/-- Whether the pair at position `i` has these stacks. -/
def matchesAt (e : Evidence) (first second : Stack) (i : Nat) : Bool :=
  match e.pairs[i]? with
  | some pair => pair.first = first ∧ pair.second = second
  | none => false

/-- Counts a sighting of two stacks. A pair is sought in the bucket of its hash, the hashes of
its stacks combined by exclusive or. -/
def addWith (hash : Stack → UInt64) (e : Evidence) (first second : Stack) : Evidence :=
  let key := hash first ^^^ hash second
  let bucket := (e.buckets.get? key).getD []
  match bucket.find? (e.matchesAt first second) with
  | some i =>
    { e with pairs := e.pairs.modify i fun pair => { pair with count := pair.count + 1 } }
  | none =>
    { pairs := e.pairs.push ⟨first, second, 1⟩
      buckets := e.buckets.insert key (bucket ++ [e.pairs.size]) }

/-- Counts a sighting of two stacks. -/
def add (e : Evidence) (first second : Stack) : Evidence := e.addWith Stack.hash first second

/-- The pairs by falling count; pairs with equal counts stay in the order in which they were
first seen. -/
def toEdge (e : Evidence) : Edge :=
  ⟨e.pairs.toList.mergeSort fun a b => b.count ≤ a.count⟩

end Evidence

end LockOrder
