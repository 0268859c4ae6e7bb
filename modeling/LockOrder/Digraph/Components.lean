import LockOrder.Digraph.Basic

/-!
# Strongly connected components

Two nodes are strongly connected when each is reachable from the other. The components are
found in two passes. The first walks depth-first against the edges and notes the order in which
nodes are left. The second takes the nodes in the reverse of that order and floods forward along
the edges: what one flood newly reaches is one component. Both walks keep their own stack, so a
long chain of nodes is no deeper than a short one.

The first flood finds a component that no edge leaves, and later floods find components whose
edges lead only into earlier ones. Numbered in reverse, every edge leads to its own component or
to a later one.

## Main definitions

* `Components` — the components of a graph
* `Digraph.finishOrder` — the first pass
* `Digraph.flood`, `Digraph.labelAll` — the second pass
* `Digraph.componentsOf` — both passes on a graph whose edges end in it
* `Digraph.components` — the same, after checking that they do
-/

namespace LockOrder

/-- How far the first pass is with a node. -/
inductive Mark where
  /-- Not reached yet. -/
  | fresh
  /-- Entered, and not left. -/
  | entered
  /-- Left. -/
  | left
deriving DecidableEq, Repr, Inhabited

/-- The strongly connected components of a graph. -/
structure Components where
  /-- The members of each component, ascending. An edge between different components leads from
  an earlier one to a later one. -/
  members : Array (List Nat)
  /-- The component of each node. -/
  componentOf : Array Nat
deriving DecidableEq, Repr, Inhabited

namespace Components

/-- The number of components. -/
def size (c : Components) : Nat := c.members.size

/-- Whether two nodes share a component. -/
def same (c : Components) (a b : Nat) : Bool := c.componentOf[a]? == c.componentOf[b]?

/-- Whether two nodes share a component; an argument that is no node is a fault. -/
def same? (c : Components) (a b : Nat) : Except Fault Bool := do
  return (← arrayAt c.componentOf a) == (← arrayAt c.componentOf b)

end Components

/-- Overwriting an occurrence of `a` by something else leaves fewer of them. -/
theorem count_setIfInBounds_lt {α : Type} [BEq α] [LawfulBEq α] {xs : Array α} {i : Nat} {a b : α}
    (h : xs[i]? = some a) (hne : b ≠ a) : (xs.setIfInBounds i b).count a < xs.count a := by
  obtain ⟨hi, rfl⟩ := Array.getElem?_eq_some_iff.mp h
  have hpos : 0 < xs.count xs[i] := Array.count_pos_iff.mpr (Array.getElem_mem hi)
  rw [Array.setIfInBounds, dif_pos hi, Array.count_set, beq_self_eq_true,
    beq_eq_false_iff_ne.mpr hne, if_pos rfl, if_neg Bool.false_ne_true]
  omega

namespace Digraph

/-! ### First pass: the order in which nodes are left -/

/-- Runs a depth-first walk along the lists `next` until its stack is empty. The top of the
stack is entered if it is fresh, and its fresh neighbours are stacked above it; otherwise it is
taken off, and left if it was not left before. `order` holds the nodes left so far, the latest
first. -/
def walk (next : Array (List Nat)) :
    List Nat → Array Mark → List Nat → Array Mark × List Nat
  | [], marks, order => (marks, order)
  | v :: stack, marks, order =>
    match _h : marks[v]? with
    | some .fresh =>
      let marks' := marks.setIfInBounds v .entered
      let above := (next.getD v []).filter fun w => marks'[w]? == some .fresh
      walk next (above.reverse ++ v :: stack) marks' order
    | some .entered => walk next stack (marks.setIfInBounds v .left) (v :: order)
    | _ => walk next stack marks order
termination_by stack marks => (marks.count .fresh, stack.length)
decreasing_by
  · exact Prod.Lex.left _ _ (count_setIfInBounds_lt _h (by decide))
  · rw [Prod.lex_def]
    right
    refine ⟨?_, by simp⟩
    obtain ⟨hv, he⟩ := Array.getElem?_eq_some_iff.mp _h
    rw [Array.setIfInBounds, dif_pos hv, Array.count_set]
    simp [he]
  · exact Prod.Lex.right _ (by simp)

/-- Walks from every node in turn that is still fresh. -/
def walkAll (next : Array (List Nat)) :
    List Nat → Array Mark → List Nat → List Nat
  | [], _, order => order
  | v :: roots, marks, order =>
    if marks[v]? = some .fresh then
      let (marks, order) := walk next [v] marks order
      walkAll next roots marks order
    else walkAll next roots marks order

/-- The nodes in the order in which a depth-first walk against the edges leaves them, the latest
first. -/
def finishOrder (g : Digraph) : List Nat :=
  walkAll g.predecessors (List.range g.order) (Array.replicate g.order .fresh) []

/-! ### Second pass: flooding forward -/

/-- Gives the label `c` to every node on the stack that has none, and to all that can be reached
from there through nodes without one. -/
def flood (g : Digraph) (c : Nat) : List Nat → Array (Option Nat) → Array (Option Nat)
  | [], labels => labels
  | v :: stack, labels =>
    match _h : labels[v]? with
    | some none => flood g c (g.targets v ++ stack) (labels.setIfInBounds v (some c))
    | _ => flood g c stack labels
termination_by stack labels => (labels.count none, stack.length)
decreasing_by
  · exact Prod.Lex.left _ _ (count_setIfInBounds_lt _h (by simp))
  · exact Prod.Lex.right _ (by simp)

/-- Floods from every node in turn that has no label, with a new label each time. The result is
the labels and the number of them used. -/
def labelAll (g : Digraph) : List Nat → Nat → Array (Option Nat) → Array (Option Nat) × Nat
  | [], c, labels => (labels, c)
  | v :: roots, c, labels =>
    if labels[v]? = some none then labelAll g roots (c + 1) (flood g c [v] labels)
    else labelAll g roots c labels

/-- The components of a graph whose edges end in it. Labels are counted from the last, so that
edges lead forward. -/
def componentsOf (g : Digraph) : Components :=
  let (labels, count) := labelAll g g.finishOrder 0 (Array.replicate g.order none)
  let componentOf := labels.map fun label => count - 1 - label.getD 0
  let members := buckets count (componentOf.toList.zipIdx)
  ⟨members, componentOf⟩

/-- The components of a graph; an edge out of the graph is a fault. -/
def components (g : Digraph) : Except Fault Components := do
  g.check
  return g.componentsOf

end Digraph

end LockOrder
