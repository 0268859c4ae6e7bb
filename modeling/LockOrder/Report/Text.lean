import LockOrder.Graph.Edit
import LockOrder.Report.Script
import LockOrder.Settings

/-!
# The text report

The text report shows every edge of a lock graph with its evidence. Components are walked in
topological order. Inside a component, a depth-first walk from one start node shows the out-edges
of a node when it reaches the node, so that each edge comes once and the edges of a cycle come
together.

The walk of a component starts at the member with the latest component among its predecessors in
other components, which tends to go on where the component before left off. A member without such
predecessors comes after those with one, and of several the lowest is taken.

## Main definitions

* `Report.indentLines` — text with a margin
* `Report.block` — the lines of one edge
* `Report.componentWalk` — the order of the edges of one component
* `Report.walks` — the walks of all components
* `Report.textReport` — the whole report
-/

namespace LockOrder.Report

/-- The text with `margin` at the beginning of each line. -/
def indentLines (margin text : String) : String :=
  margin ++ String.ofList (text.toList.flatMap fun c =>
    if c = '\n' then '\n' :: margin.toList else [c])

/-! ### The lines of an edge -/

/-- A stack, indented. -/
def stackStep (settings : Settings) (table : StackTable) (stack : Stack) : Step :=
  .ofLine ((table.stackText stack).map (indentLines settings.indent))

/-- The lines of one pair of stacks. -/
def pairSteps (settings : Settings) (table : StackTable) (source target : String)
    (pair : StackPair) : Script :=
  [ .line ("acquired " ++ source ++ " " ++ Text.decimal pair.count ++ " times at:"),
    stackStep settings table pair.first,
    .line ("then " ++ target ++ " at:"),
    stackStep settings table pair.second ]

/-- The lines of an edge between the given labels. -/
def edgeSteps (settings : Settings) (table : StackTable) (source target : String) (e : Edge) :
    Script :=
  .line (source ++ " -> " ++ target) ::
    (e.pairs.take settings.maxStackPairs).flatMap (pairSteps settings table source target) ++
    (if settings.maxStackPairs < e.pairs.length then
      [.line (".. " ++ Text.decimal (e.pairs.length - settings.maxStackPairs) ++
        " more stack pairs ..")]
    else []) ++
    [.line ""]

/-- The labels of the ends of an edge, and its evidence. -/
def edgeParts (settings : Settings) (g : Graph) (e : EdgeId) :
    Except Fault (String × String × Edge) := do
  let source ← g.labelAt settings.labelStart e.node
  let target ← g.labelAt settings.labelStart (← g.targetAt e)
  return (source, target, ← g.edgeAt e)

/-- The lines of an edge of a graph. -/
def block (settings : Settings) (g : Graph) (e : EdgeId) : Script :=
  match edgeParts settings g e with
  | .ok (source, target, evidence) => edgeSteps settings g.table source target evidence
  | .error f => [.fault f]

/-! ### The order of the edges -/

/-- A node of a walk with the targets and positions of its out-edges that are still to come. -/
abbrev Frame := Nat × List (Nat × Nat)

/-- The frame of a node that the walk reaches. -/
def frameOf (g : Digraph) (v : Nat) : Frame := (v, (g.targets v).zipIdx)

/-- Goes on with a walk that stays inside a set of nodes, from the frames of the nodes that it is
in, the innermost first. `visited` marks the nodes reached and `shown` holds the edges shown so
far, the latest first. -/
def walkFrames (g : Digraph) (inside : Nat → Bool) :
    List Frame → Array Bool → List EdgeId → Array Bool × List EdgeId
  | [], visited, shown => (visited, shown)
  | (_, []) :: frames, visited, shown => walkFrames g inside frames visited shown
  | (v, (w, i) :: edges) :: frames, visited, shown =>
    match _h : visited[w]? with
    | some false =>
      if inside w then
        walkFrames g inside (frameOf g w :: (v, edges) :: frames) (visited.setIfInBounds w true)
          (⟨v, i⟩ :: shown)
      else walkFrames g inside ((v, edges) :: frames) visited (⟨v, i⟩ :: shown)
    | _ => walkFrames g inside ((v, edges) :: frames) visited (⟨v, i⟩ :: shown)
termination_by frames visited =>
  (visited.count false, total (frames.map fun frame => frame.2.length + 1))
decreasing_by
  · exact Prod.Lex.right _ (by simp)
  · exact Prod.Lex.left _ _ (count_setIfInBounds_lt _h (by simp))
  · exact Prod.Lex.right _ (by simp)
  · exact Prod.Lex.right _ (by simp)

/-- The edges out of a component in the order in which a walk from `start` shows them, and the
nodes visited after it. -/
def componentWalk (g : Digraph) (comps : Components) (c start : Nat) (visited : Array Bool) :
    Array Bool × List EdgeId :=
  let (visited, shown) :=
    walkFrames g (fun v => comps.componentOf[v]? == some c) [frameOf g start]
      (visited.setIfInBounds start true) []
  (visited, shown.reverse)

/-- Whether the latest component before a node comes before that of another. -/
def comesBefore : Option Nat → Option Nat → Bool
  | none, some _ => true
  | some a, some b => a < b
  | _, none => false

/-- The member to start with: the one with the latest component before it, and the first of
several. -/
def pickStart (latest : Array (Option Nat)) (first : Nat) (others : List Nat) : Nat :=
  others.foldl (fun best m =>
    if comesBefore (latest[best]?.join) (latest[m]?.join) then m else best) first

/-- Notes a component as the latest before each target of its edges outside. Components are
walked in order, so it is later than all before it. -/
def noteLatest (g : Digraph) (comps : Components) (c : Nat) (members : List Nat)
    (latest : Array (Option Nat)) : Array (Option Nat) :=
  (members.flatMap g.targets).foldl (fun latest t =>
    if comps.componentOf[t]? == some c then latest else latest.setIfInBounds t (some c)) latest

/-- The walk of a component. -/
structure Walk where
  /-- The component. -/
  component : Nat
  /-- The number of its members. -/
  size : Nat
  /-- The node that the walk starts at. -/
  start : Nat
  /-- The edges in the order in which they are shown. -/
  edges : List EdgeId
deriving DecidableEq, Repr

/-- The walks of the components from number `c` on. -/
def walksFrom (g : Digraph) (comps : Components) :
    Nat → List (List Nat) → Array Bool → Array (Option Nat) → List Walk
  | _, [], _, _ => []
  | c, [] :: rest, visited, latest => walksFrom g comps (c + 1) rest visited latest
  | c, (first :: others) :: rest, visited, latest =>
    let start := pickStart latest first others
    let (visited, edges) := componentWalk g comps c start visited
    ⟨c, others.length + 1, start, edges⟩ ::
      walksFrom g comps (c + 1) rest visited (noteLatest g comps c (first :: others) latest)

/-- The walks of all components in topological order. -/
def walks (g : Digraph) (comps : Components) : List Walk :=
  walksFrom g comps 0 comps.members.toList (Array.replicate g.order false)
    (Array.replicate g.order none)

/-! ### The report -/

/-- The part of the report that shows one component. -/
def walkSteps (settings : Settings) (g : Graph) (walk : Walk) : Script :=
  .log (.walkingComponent walk.component walk.size walk.start) ::
    walk.edges.flatMap (block settings g)

/-- The text report of a graph. -/
def textReport (settings : Settings) (g : Graph) : Script :=
  match g.digraph.components with
  | .ok comps => (walks g.digraph comps).flatMap (walkSteps settings g)
  | .error f => [.fault f]

end LockOrder.Report
