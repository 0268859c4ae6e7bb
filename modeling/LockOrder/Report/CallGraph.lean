import LockOrder.Report.Dot

/-!
# Drawings of the calls behind an edge

The evidence of an edge is drawn as a call graph: a node for each function or source line on its
stacks, an arrow from each caller to each callee, and a red arrow from where the first lock was
taken to where the second was, as wide as it is frequent.

Stacks are trimmed first: the function that every thread ends in is left out, and a stack without
frames is shown as one frame that says so.

## Main definitions

* `Grain`, `Key` — which frames share a node
* `Report.trimStack` — a stack as it is drawn
* `CallGraph` — nodes, calls and acquisitions
* `CallGraph.ofPairs` — the call graph of trimmed evidence
* `Report.edgeDot` — its drawing
-/

namespace LockOrder

/-- Which frames share a node of a call graph. -/
inductive Grain where
  /-- Those of one function. -/
  | function
  /-- Those of one source line. -/
  | line
deriving DecidableEq, Repr

/-- What the frames of one node have in common. -/
inductive Key where
  /-- The function. -/
  | function (index : Nat)
  /-- The whole frame. -/
  | frame (pos : Pos)
deriving DecidableEq, Repr

namespace Grain

/-- What a frame shares with the other frames of its node. Unresolved frames are told apart by
their text. -/
def key : Grain → Pos → Key
  | .function, .resolved _ func _ => .function func
  | _, pos => .frame pos

/-- The label of the node of a frame. -/
def label (table : StackTable) : Grain → Pos → Except Fault String
  | _, .unresolved text => .ok text
  | .function, .resolved _ func _ => table.funcs.get func
  | .line, .resolved file func row => do
    let func ← table.funcs.get func
    let file ← table.files.get file
    return func ++ "\n" ++ baseName file ++ ":" ++ Text.decimal row

end Grain

/-- The elements of a list whose key none before them has. `seen` are the keys before. -/
def firstSeenAfter {α β : Type} [DecidableEq β] (key : α → β) (seen : List β) : List α → List α
  | [] => []
  | a :: rest =>
    if key a ∈ seen then firstSeenAfter key seen rest
    else a :: firstSeenAfter key (key a :: seen) rest

/-- The elements of a list whose key none before them has. -/
def firstSeen {α β : Type} [DecidableEq β] (key : α → β) (xs : List α) : List α :=
  firstSeenAfter key [] xs

/-- A call graph. Nodes are addressed by position. -/
structure CallGraph where
  /-- The first frame seen of each node. -/
  nodes : List Pos
  /-- The callers and callees. -/
  calls : List (Nat × Nat)
  /-- Where a lock was taken and then another, and how often. -/
  acquisitions : List ((Nat × Nat) × Nat)
deriving DecidableEq, Repr

namespace CallGraph

/-- The position of the node of a frame. -/
def nodeOf (grain : Grain) (nodes : List Pos) (pos : Pos) : Nat :=
  nodes.findIdx fun node => grain.key node = grain.key pos

/-- The frames of a stack with the frames that they were called from, the outermost call first. -/
def callsOf (s : Stack) : List (Pos × Pos) := (s.frames.tail.zip s.frames).reverse

/-- The total count of each key, in the order in which the keys are first seen. -/
def totals (counts : List ((Nat × Nat) × Nat)) : List ((Nat × Nat) × Nat) :=
  (firstSeen Prod.fst counts).map fun (key, _) =>
    (key, total ((counts.filter fun entry => entry.1 = key).map Prod.snd))

/-- The ends of the innermost frames of a pair of stacks. -/
def innermostOf (p : StackPair) : Option (Pos × Pos) := do
  return (← p.first.innermost?, ← p.second.innermost?)

/-- The call graph of trimmed evidence. -/
def ofPairs (grain : Grain) (pairs : List StackPair) : CallGraph :=
  let drawn := pairs.flatMap fun p => [p.first, p.second]
  let nodes := firstSeen grain.key (drawn.flatMap Stack.frames)
  let node := nodeOf grain nodes
  { nodes := nodes
    calls := firstSeen id ((drawn.flatMap callsOf).map fun (caller, callee) =>
      (node caller, node callee))
    acquisitions := totals (pairs.filterMap fun p =>
      (innermostOf p).map fun (first, second) => ((node first, node second), p.count)) }

/-- The count of the most frequent acquisition. -/
def heaviest (g : CallGraph) : Nat := (g.acquisitions.map Prod.snd).foldl max 0

end CallGraph

namespace Report

/-- A stack as it is drawn. -/
def trimStack (settings : Settings) (table : StackTable) (s : Stack) : Except Fault Stack := do
  let frames ←
    match s.frames.getLast? with
    | none => pure []
    | some outer =>
      if (← table.funcName? outer) = some settings.exitFunction then pure s.frames.dropLast
      else pure s.frames
  return ⟨if frames.isEmpty then [.unresolved settings.missingStack] else frames⟩

/-- A pair of stacks as it is drawn. -/
def trimPair (settings : Settings) (table : StackTable) (p : StackPair) :
    Except Fault StackPair := do
  return ⟨← trimStack settings table p.first, ← trimStack settings table p.second, p.count⟩

/-- The statement of a node of a call graph. -/
def frameLine (table : StackTable) (grain : Grain) (node : Nat) (pos : Pos) :
    Except Fault String := do
  return "  " ++ nodeName node ++ " [label=" ++ dotString (← grain.label table pos) ++ "];"

/-- The statement of a call. -/
def callLine (caller callee : Nat) : String :=
  "  " ++ nodeName caller ++ " -> " ++ nodeName callee ++ ";"

/-- The width of an acquisition: from the smallest to the largest pen width in proportion to its
share of the heaviest one. -/
def penWidth (settings : Settings) (weight heaviest : Nat) : Float :=
  let share :=
    if heaviest = 0 then 0
    else (UInt64.ofNat weight).toFloat / (UInt64.ofNat heaviest).toFloat
  settings.minPenWidth + (settings.maxPenWidth - settings.minPenWidth) * share

/-- The statement of an acquisition. -/
def acquisitionLine (settings : Settings) (heaviest first second weight : Nat) : String :=
  "  " ++ nodeName first ++ " -> " ++ nodeName second ++ " [color=red,penwidth=" ++
    Number.plainText (penWidth settings weight heaviest) ++ ",label=" ++ Text.decimal weight ++ "];"

/-- The drawing of a call graph. -/
def callGraphDot (settings : Settings) (table : StackTable) (grain : Grain) (g : CallGraph) :
    Script :=
  [.line dotOpening, .line "  node [shape=box,fontsize=10];"] ++
    g.nodes.zipIdx.map (fun (pos, node) => .ofLine (frameLine table grain node pos)) ++
    g.calls.map (fun (caller, callee) => .line (callLine caller callee)) ++
    g.acquisitions.map (fun ((first, second), weight) =>
      .line (acquisitionLine settings g.heaviest first second weight)) ++
    [.line dotClosing]

/-- The drawing of the calls behind an edge. -/
def edgeDot (settings : Settings) (table : StackTable) (grain : Grain) (e : Edge) : Script :=
  match e.pairs.mapM (trimPair settings table) with
  | .ok pairs => callGraphDot settings table grain (.ofPairs grain pairs)
  | .error f => [.fault f]

end Report

end LockOrder
