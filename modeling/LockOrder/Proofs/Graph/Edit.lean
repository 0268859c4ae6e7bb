import LockOrder.Proofs.Graph.CycleGraph
import LockOrder.Proofs.Stack.Growth

/-!
# Editing graphs

An edit writes the three arrays of a graph one after another, so a fault between two writes would
leave a graph whose arrays no longer run in parallel. On a sound graph there is no such fault: the
only test that can fail comes before the first write. A graph that is edited in place therefore
stays sound along every session, whether its edits succeed or fail, and an edit that appends leaves
all that was there where it was.

## Main definitions

* `Graph.addNodeInPlace`, `Graph.addEdgeInPlace` — appending as a sequence of writes
* `Edit`, `Edit.perform`, `Graph.apply` — the edits, in place and as functions on graphs
* `Graph.afterAll` — the graph that a session of edits leaves behind
* `Graph.GainsEdge`, `Graph.KeptIn` — a graph with one more edge, a graph with all of another

## Main results

* `Graph.outcome_addEdgeInPlace` — the writes make the graph that `Graph.addEdge` returns
* `Graph.Sound.gainsEdge` — what an appended edge changes
* `Graph.Sound.perform` — what one edit does
* `Graph.Sound.afterAll` — a session keeps a graph sound
* `Graph.edits_keep_graph_sound` — and a failing edit changes nothing
-/

namespace LockOrder

/-! ### Lists in an array -/

section Rows

variable {α : Type} {rows : Array (List α)} {row : List α} {source v i : Nat} {a x : α}

/-- Appending to one of the lists adds one entry. -/
theorem exists_entry_append_iff (hrow : rows[source]? = some row) :
    (∃ ys, (rows.setIfInBounds source (row ++ [x]))[v]? = some ys ∧ ys[i]? = some a) ↔
      (∃ ys, rows[v]? = some ys ∧ ys[i]? = some a) ∨ v = source ∧ i = row.length ∧ a = x := by
  have hlt : source < rows.size := (Array.getElem?_eq_some_iff.mp hrow).1
  by_cases hv : v = source
  · subst hv
    simp only [Array.getElem?_setIfInBounds_self_of_lt hlt, hrow, Option.some.injEq,
      exists_eq_left', true_and]
    grind
  · simp [Array.getElem?_setIfInBounds_ne (Ne.symm hv), hv]

/-- A new list without entries adds none. -/
theorem exists_entry_push_iff :
    (∃ ys, (rows.push [])[v]? = some ys ∧ ys[i]? = some a) ↔
      ∃ ys, rows[v]? = some ys ∧ ys[i]? = some a := by
  by_cases hv : v = rows.size
  · simp [hv]
  · simp [Array.getElem?_push, hv]

end Rows

namespace Graph

variable {g g' : Graph} {id : EdgeId} {e : Edge} {source target : Nat} {label : String}

/-! ### Appending in place -/

/-- Appends a node, one array after another. -/
def addNodeInPlace (label : String) : EStateM Fault Graph Nat := do
  modify fun g => { g with labels := g.labels.push label }
  modify fun g => { g with edges := g.edges.push [] }
  modify fun g => { g with targets := g.targets.push [] }
  return (← get).nodeCount - 1

/-- Appends to the evidence of the out-edges of a node. -/
def pushEvidence (source : Nat) (e : Edge) : EStateM Fault Graph Unit := fun g =>
  match arrayAt g.edges source with
  | .ok edges => .ok () { g with edges := g.edges.setIfInBounds source (edges ++ [e]) }
  | .error f => .error f g

/-- Appends to the targets of the out-edges of a node, and tells the position of the new one. -/
def pushTarget (source target : Nat) : EStateM Fault Graph Nat := fun g =>
  match arrayAt g.targets source with
  | .ok targets =>
    .ok targets.length { g with targets := g.targets.setIfInBounds source (targets ++ [target]) }
  | .error f => .error f g

/-- Appends an edge: tests its ends, then writes its evidence, then its target. -/
def addEdgeInPlace (source target : Nat) (e : Edge) : EStateM Fault Graph EdgeId := do
  let nodes := (← get).nodeCount
  if nodes ≤ source ∨ nodes ≤ target then
    throw (.edgeOutside source target nodes)
  pushEvidence source e
  return ⟨source, ← pushTarget source target⟩

/-- The result of a computation in place, without the graph that a fault leaves behind. -/
def outcome {α : Type} : EStateM.Result Fault Graph α → Except Fault (α × Graph)
  | .ok a g => .ok (a, g)
  | .error f _ => .error f

theorem addNodeInPlace_eq (g : Graph) (label : String) :
    addNodeInPlace label g = .ok (g.addNode label).1 (g.addNode label).2 := by
  have hlast : (g.addNode label).2.nodeCount - 1 = g.nodeCount := by simp [addNode, nodeCount]
  exact congrArg (EStateM.Result.ok · (g.addNode label).2) hlast

theorem addEdgeInPlace_of_outside (h : g.nodeCount ≤ source ∨ g.nodeCount ≤ target) :
    addEdgeInPlace source target e g = .error (.edgeOutside source target g.nodeCount) g := by
  change (if g.nodeCount ≤ source ∨ g.nodeCount ≤ target then _ else _ :
    EStateM Fault Graph EdgeId) g = _
  rw [if_pos h]
  rfl

theorem addEdgeInPlace_of_inside (h : ¬ (g.nodeCount ≤ source ∨ g.nodeCount ≤ target)) :
    addEdgeInPlace source target e g =
      (do pushEvidence source e; return ⟨source, ← pushTarget source target⟩ :
        EStateM Fault Graph EdgeId) g := by
  change (if g.nodeCount ≤ source ∨ g.nodeCount ≤ target then _ else _ :
    EStateM Fault Graph EdgeId) g = _
  rw [if_neg h]

/-- The writes, one after another, make the graph that `addEdge` returns, and fail as it does. -/
theorem outcome_addEdgeInPlace (g : Graph) (source target : Nat) (e : Edge) :
    outcome (addEdgeInPlace source target e g) = g.addEdge source target e := by
  by_cases h : g.nodeCount ≤ source ∨ g.nodeCount ≤ target
  · rw [addEdgeInPlace_of_outside h, addEdge, if_pos h]
    rfl
  · rw [addEdgeInPlace_of_inside h, addEdge, if_neg h]
    simp only [bind, EStateM.bind, pushEvidence, pushTarget]
    cases arrayAt g.edges source with
    | error f => rfl
    | ok edges =>
      -- the targets are read after the evidence was written, and are the same as before
      dsimp only
      cases arrayAt g.targets source <;> rfl

/-- Only between nodes can an edge be appended. -/
theorem inside_of_addEdge (h : g.addEdge source target e = .ok (id, g')) :
    source < g.nodeCount ∧ target < g.nodeCount := by
  by_contra houtside
  have hfails : g.nodeCount ≤ source ∨ g.nodeCount ≤ target := by omega
  rw [← outcome_addEdgeInPlace, addEdgeInPlace_of_outside hfails] at h
  cases h

/-- On a graph that lacks a list of targets, the second write fails after the first. -/
example : addEdgeInPlace 0 0 ⟨[]⟩ ⟨#["a"], #[[]], #[], ⟨⟨#[]⟩, ⟨#[]⟩⟩⟩ =
    .error (.index 0 0) ⟨#["a"], #[[⟨[]⟩]], #[], ⟨⟨#[]⟩, ⟨#[]⟩⟩⟩ := rfl

/-! ### What appending changes -/

/-- A graph has all of another, under the same names. -/
structure KeptIn (g g' : Graph) : Prop where
  /-- The nodes keep their labels. -/
  label : ∀ v < g.nodeCount, g'.labels[v]? = g.labels[v]?
  /-- The edges keep their targets. -/
  target : ∀ e ∈ g.edgeIds, g'.targetAt e = g.targetAt e
  /-- The edges keep their evidence. -/
  evidence : ∀ e ∈ g.edgeIds, g'.edgeAt e = g.edgeAt e

/-- A sound graph is kept where its labels and its edges can be read as before. -/
theorem Sound.keptIn (hg : g.Sound) (hlabel : ∀ v < g.nodeCount, g'.labels[v]? = g.labels[v]?)
    (htarget : ∀ e v, g.targetAt e = .ok v → g'.targetAt e = .ok v)
    (hedge : ∀ e edge, g.edgeAt e = .ok edge → g'.edgeAt e = .ok edge) : g.KeptIn g' where
  label := hlabel
  target e he := by
    obtain ⟨v, hv⟩ := mem_edgeIds.mp he
    rw [hv, htarget e v hv]
  evidence e he := by
    obtain ⟨v, hv⟩ := mem_edgeIds.mp he
    obtain ⟨edge, hread, _⟩ := hg.exists_edgeAt hv
    rw [hread, hedge e edge hread]

/-- A graph has the nodes of another and one edge more. -/
structure GainsEdge (g : Graph) (id : EdgeId) (target : Nat) (e : Edge) (g' : Graph) : Prop where
  /-- The nodes are the same. -/
  labels : g'.labels = g.labels
  /-- The stack table is the same. -/
  table : g'.table = g.table
  /-- There are as many lists of evidence. -/
  edges_size : g'.edges.size = g.edges.size
  /-- There are as many lists of targets. -/
  targets_size : g'.targets.size = g.targets.size
  /-- The edge is new. -/
  fresh : id ∉ g.edgeIds
  /-- The targets are those from before and the new one. -/
  targetAt_iff : ∀ {d t}, g'.targetAt d = .ok t ↔ g.targetAt d = .ok t ∨ d = id ∧ t = target
  /-- The evidence is that from before and the new one. -/
  edgeAt_iff : ∀ {d edge}, g'.edgeAt d = .ok edge ↔ g.edgeAt d = .ok edge ∨ d = id ∧ edge = e

/-- An edge between nodes of a sound graph can be appended, and comes last at its source. -/
theorem Sound.gainsEdge (hg : g.Sound) (hsource : source < g.nodeCount)
    (htarget : target < g.nodeCount) (e : Edge) :
    ∃ id g', g.addEdge source target e = .ok (id, g') ∧
      addEdgeInPlace source target e g = .ok id g' ∧ id.node = source ∧
      g.GainsEdge id target e g' := by
  have hinside : ¬ (g.nodeCount ≤ source ∨ g.nodeCount ≤ target) := by omega
  obtain ⟨edges, hedges⟩ : ∃ edges, g.edges[source]? = some edges :=
    ⟨_, Array.getElem?_eq_getElem (hg.edges_size ▸ hsource)⟩
  obtain ⟨targets, htargets⟩ : ∃ targets, g.targets[source]? = some targets :=
    ⟨_, Array.getElem?_eq_getElem (hg.targets_size ▸ hsource)⟩
  have hlength : edges.length = targets.length := hg.degree source edges targets hedges htargets
  let g' : Graph := { g with
    edges := g.edges.setIfInBounds source (edges ++ [e])
    targets := g.targets.setIfInBounds source (targets ++ [target]) }
  have hwrites : addEdgeInPlace source target e g = .ok ⟨source, targets.length⟩ g' := by
    rw [addEdgeInPlace_of_inside hinside]
    simp only [bind, EStateM.bind, pushEvidence, pushTarget, arrayAt_eq_ok_iff.mpr hedges,
      arrayAt_eq_ok_iff.mpr htargets]
    rfl
  have hadd : g.addEdge source target e = .ok (⟨source, targets.length⟩, g') := by
    rw [← outcome_addEdgeInPlace, hwrites]
    rfl
  have hname : ∀ d : EdgeId, d = ⟨source, targets.length⟩ ↔
      d.node = source ∧ d.edge = targets.length := by
    intro d
    cases d
    exact EdgeId.mk.injEq .. ▸ Iff.rfl
  refine ⟨_, g', hadd, hwrites, rfl, rfl, rfl, Array.size_setIfInBounds, Array.size_setIfInBounds,
    fun hmem => ?_, fun {d t} => ?_, fun {d edge} => ?_⟩
  · -- the position is the first one behind the targets
    obtain ⟨t, ht⟩ := mem_edgeIds.mp hmem
    obtain ⟨ts, hts, hpos⟩ := targetAt_eq_ok_iff_exists.mp ht
    obtain rfl := Option.some.inj (htargets.symm.trans hts)
    exact Nat.lt_irrefl _ (List.getElem?_eq_some_iff.mp hpos).1
  · rw [targetAt_eq_ok_iff_exists, targetAt_eq_ok_iff_exists, hname, and_assoc]
    exact exists_entry_append_iff htargets
  · rw [edgeAt_eq_ok_iff, edgeAt_eq_ok_iff, hname, and_assoc, ← hlength]
    exact exists_entry_append_iff hedges

theorem GainsEdge.nodeCount_eq (h : g.GainsEdge id target e g') : g'.nodeCount = g.nodeCount :=
  congrArg Array.size h.labels

theorem GainsEdge.keptIn (h : g.GainsEdge id target e g') (hg : g.Sound) : g.KeptIn g' := by
  apply hg.keptIn
  · exact fun v _ => by rw [h.labels]
  · exact fun d t hd => h.targetAt_iff.mpr (.inl hd)
  · exact fun d edge hd => h.edgeAt_iff.mpr (.inl hd)

theorem GainsEdge.mem_edgeIds_iff (h : g.GainsEdge id target e g') {d : EdgeId} :
    d ∈ g'.edgeIds ↔ d ∈ g.edgeIds ∨ d = id := by
  simp only [mem_edgeIds, h.targetAt_iff, exists_or, exists_and_left, exists_eq, and_true]

/-- A sound graph stays sound with an edge more between its nodes, if the evidence is sound. -/
theorem GainsEdge.sound (h : g.GainsEdge id target e g') (hg : g.Sound)
    (htarget : target < g.nodeCount) (he : ∀ p ∈ e.pairs, p.Sound g.table) : g'.Sound := by
  apply sound_of_edges
  · rw [h.edges_size, h.nodeCount_eq, hg.edges_size]
  · rw [h.targets_size, h.nodeCount_eq, hg.targets_size]
  · intro d
    simp only [h.edgeAt_iff, h.targetAt_iff, exists_or, exists_and_left, exists_eq,
      hg.exists_edgeAt_iff]
  · intro d t hd
    rw [h.nodeCount_eq]
    rcases h.targetAt_iff.mp hd with hold | ⟨_, rfl⟩
    · exact hg.target_lt hold
    · exact htarget
  · intro d edge hd
    rw [h.table]
    rcases h.edgeAt_iff.mp hd with hold | ⟨_, rfl⟩
    · exact hg.sound_of_edgeAt hold
    · exact he

theorem targetAt_addNode_iff {d : EdgeId} {t : Nat} :
    (g.addNode label).2.targetAt d = .ok t ↔ g.targetAt d = .ok t := by
  rw [targetAt_eq_ok_iff_exists, targetAt_eq_ok_iff_exists]
  exact exists_entry_push_iff

theorem edgeAt_addNode_iff {d : EdgeId} {edge : Edge} :
    (g.addNode label).2.edgeAt d = .ok edge ↔ g.edgeAt d = .ok edge := by
  rw [edgeAt_eq_ok_iff, edgeAt_eq_ok_iff]
  exact exists_entry_push_iff

theorem nodeCount_addNode : (g.addNode label).2.nodeCount = g.nodeCount + 1 := Array.size_push ..

theorem Sound.keptIn_addNode (hg : g.Sound) (label : String) : g.KeptIn (g.addNode label).2 := by
  apply hg.keptIn
  · intro v hv
    exact (Array.getElem?_push_lt hv).trans (Array.getElem?_eq_getElem hv).symm
  · exact fun d t hd => targetAt_addNode_iff.mpr hd
  · exact fun d edge hd => edgeAt_addNode_iff.mpr hd

theorem Sound.addNode (hg : g.Sound) (label : String) : (g.addNode label).2.Sound := by
  apply sound_of_edges
  · exact (Array.size_push ..).trans (hg.edges_size ▸ nodeCount_addNode.symm)
  · exact (Array.size_push ..).trans (hg.targets_size ▸ nodeCount_addNode.symm)
  · intro d
    simp only [edgeAt_addNode_iff, targetAt_addNode_iff]
    exact hg.exists_edgeAt_iff
  · intro d t hd
    rw [nodeCount_addNode]
    exact Nat.lt_succ_of_lt (hg.target_lt (targetAt_addNode_iff.mp hd))
  · intro d edge hd
    exact hg.sound_of_edgeAt (edgeAt_addNode_iff.mp hd)

theorem sound_empty (table : StackTable) : (empty table).Sound where
  edges_size := rfl
  targets_size := rfl
  degree _ _ _ h := nomatch h
  inside _ _ h := nomatch h
  evidence _ _ h := nomatch h

end Graph

/-! ### Sessions -/

/-- An edit of the graph at hand. -/
inductive Edit where
  /-- Appends a node. -/
  | node (label : String)
  /-- Appends an edge. -/
  | edge (source target : Nat) (e : Edge)
  /-- Interns names into the stack table. -/
  | intern (call : Interning)
  /-- Goes on with a projection. -/
  | restrict (nodes : List Nat) (edges : List EdgeId)
  /-- Goes on with the projection onto the cycles. -/
  | cycles
deriving DecidableEq, Repr

namespace Graph

/-- The graph that an edit makes of a graph. -/
def apply (g : Graph) : Edit → Except Fault Graph
  | .node label => .ok (g.addNode label).2
  | .edge source target e => (g.addEdge source target e).map Prod.snd
  | .intern call => .ok { g with table := g.table.after call }
  | .restrict nodes edges => g.restrict nodes edges
  | .cycles => g.cycleGraph

/-- Goes on with a graph that is made of the one at hand, if it can be made. -/
def replaceBy (make : Graph → Except Fault Graph) : EStateM Fault Graph Unit := fun g =>
  match make g with
  | .ok g' => .ok () g'
  | .error f => .error f g

end Graph

namespace Edit

/-- Edits the graph at hand in place. -/
def perform : Edit → EStateM Fault Graph Unit
  | node label => discard (Graph.addNodeInPlace label)
  | edge source target e => discard (Graph.addEdgeInPlace source target e)
  | intern call => modify fun g => { g with table := g.table.after call }
  | restrict nodes edges => Graph.replaceBy fun g => g.restrict nodes edges
  | cycles => Graph.replaceBy Graph.cycleGraph

/-- The evidence that an edit brings along was seen, and points inside the table. -/
def Brings (table : StackTable) : Edit → Prop
  | edge _ _ e => ∀ p ∈ e.pairs, p.Sound table
  | _ => True

/-- All nodes and edges that an edit refers to are there, and a projection keeps the ends of the
edges that it keeps. -/
def Apt (g : Graph) : Edit → Prop
  | edge source target _ => source < g.nodeCount ∧ target < g.nodeCount
  | restrict nodes edges => (∀ v ∈ nodes, v < g.nodeCount) ∧
      ∀ e ∈ edges, e.node ∈ nodes ∧ ∃ t ∈ nodes, g.targetAt e = .ok t
  | _ => True

end Edit

namespace Graph

variable {g g' start : Graph} {edit : Edit} {edits : List Edit}

/-- The graph that an edit leaves behind, be it after a fault. -/
def leftBy (g : Graph) (edit : Edit) : Graph :=
  match edit.perform g with
  | .ok _ g' => g'
  | .error _ g' => g'

/-- The graph that a session of edits leaves behind. A failing edit does not end the session. -/
def afterAll (g : Graph) (edits : List Edit) : Graph := edits.foldl leftBy g

/-- Each edit of a session brings sound evidence for the table that there is at its time. -/
def Admits (g : Graph) : List Edit → Prop
  | [] => True
  | edit :: edits => edit.Brings g.table ∧ (g.leftBy edit).Admits edits

theorem admits_append {more : List Edit} :
    g.Admits (edits ++ more) ↔ g.Admits edits ∧ (g.afterAll edits).Admits more := by
  induction edits generalizing g with
  | nil => simp [Admits, afterAll]
  | cons edit edits ih => exact (and_congr_right fun _ => ih).trans and_assoc.symm

/-- An edit that fails before any change, as the function on graphs fails. -/
def FailsAtOnce (g : Graph) (edit : Edit) : Prop :=
  ∃ f, edit.perform g = .error f g ∧ g.apply edit = .error f

/-- An edit that makes a graph in place, the one that the function on graphs returns. -/
def Makes (g : Graph) (edit : Edit) (g' : Graph) : Prop :=
  edit.perform g = .ok () g' ∧ g.apply edit = .ok g'

theorem Makes.leftBy_eq (h : g.Makes edit g') : g.leftBy edit = g' := by
  rw [leftBy, h.1]

theorem FailsAtOnce.leftBy_eq (h : g.FailsAtOnce edit) : g.leftBy edit = g := by
  obtain ⟨f, hf, _⟩ := h
  rw [leftBy, hf]

theorem discard_of_ok {α : Type} {x : EStateM Fault Graph α} {a : α} (h : x g = .ok a g') :
    (discard x : EStateM Fault Graph Unit) g = .ok () g' := by
  change EStateM.map _ x g = _
  rw [EStateM.map, h]

theorem discard_of_error {α : Type} {x : EStateM Fault Graph α} {f : Fault}
    (h : x g = .error f g') : (discard x : EStateM Fault Graph Unit) g = .error f g' := by
  change EStateM.map _ x g = _
  rw [EStateM.map, h]

/-- An edge can be appended to a sound graph exactly if its ends are nodes. -/
theorem Sound.perform_edge (hg : g.Sound) (source target : Nat) (e : Edge)
    (he : ∀ p ∈ e.pairs, p.Sound g.table) :
    (g.FailsAtOnce (.edge source target e) ∧ ¬ (Edit.edge source target e).Apt g) ∨
      ∃ g', g.Makes (.edge source target e) g' ∧ g'.Sound ∧ (Edit.edge source target e).Apt g := by
  by_cases houtside : g.nodeCount ≤ source ∨ g.nodeCount ≤ target
  · -- the test comes first, so that nothing was written yet
    have hwrites := addEdgeInPlace_of_outside (e := e) houtside
    refine .inl ⟨⟨_, discard_of_error hwrites, ?_⟩, fun hapt => ?_⟩
    · rw [apply, ← outcome_addEdgeInPlace, hwrites]
      rfl
    · exact houtside.elim (Nat.not_le.mpr hapt.1) (Nat.not_le.mpr hapt.2)
  · have hsource : source < g.nodeCount := by omega
    have htarget : target < g.nodeCount := by omega
    obtain ⟨id, g', hadd, hwrites, _, hgains⟩ := hg.gainsEdge hsource htarget e
    refine .inr ⟨g', ⟨discard_of_ok hwrites, ?_⟩, hgains.sound hg htarget he, hsource, htarget⟩
    rw [apply, hadd]
    rfl

/-- A projection can be made of a sound graph exactly if it is apt. -/
theorem Sound.perform_restrict (hg : g.Sound) (nodes : List Nat) (edges : List EdgeId) :
    (g.FailsAtOnce (.restrict nodes edges) ∧ ¬ (Edit.restrict nodes edges).Apt g) ∨
      ∃ g', g.Makes (.restrict nodes edges) g' ∧ g'.Sound ∧ (Edit.restrict nodes edges).Apt g := by
  have happly : g.apply (.restrict nodes edges) = g.restrict nodes edges := rfl
  have hperform : (Edit.restrict nodes edges).perform g =
      replaceBy (fun g => g.restrict nodes edges) g := rfl
  rw [FailsAtOnce]
  simp only [Makes, happly, hperform, replaceBy]
  cases hmade : g.restrict nodes edges with
  | error f =>
    refine .inl ⟨⟨f, rfl, rfl⟩, fun hapt => ?_⟩
    obtain ⟨g', hg'⟩ := hg.exists_restrict_iff.mpr hapt
    exact nomatch hmade.symm.trans hg'
  | ok g' =>
    exact .inr ⟨g', ⟨rfl, rfl⟩, hg.restrict hmade, hg.exists_restrict_iff.mp ⟨g', hmade⟩⟩

/-- An edit of a sound graph fails before any change, or makes a sound graph. It fails exactly if
it refers to something that is not there. -/
theorem Sound.perform (hg : g.Sound) (hbrings : edit.Brings g.table) :
    (g.FailsAtOnce edit ∧ ¬ edit.Apt g) ∨ ∃ g', g.Makes edit g' ∧ g'.Sound ∧ edit.Apt g := by
  cases edit with
  | node label =>
    exact .inr ⟨_, ⟨discard_of_ok (g.addNodeInPlace_eq label), rfl⟩, hg.addNode label, trivial⟩
  | edge source target e => exact hg.perform_edge source target e hbrings
  | intern call =>
    exact .inr ⟨_, ⟨rfl, rfl⟩, hg.growsTo (g.table.growsTo_after [call]), trivial⟩
  | restrict nodes edges => exact hg.perform_restrict nodes edges
  | cycles =>
    obtain ⟨h, hh⟩ := hg.exists_cycleGraph
    have hperform : Edit.cycles.perform g = .ok () h := by
      rw [Edit.perform, replaceBy, hh]
    exact .inr ⟨h, ⟨hperform, hh⟩, hg.restrict (hg.cycleGraph_eq ▸ hh), trivial⟩

theorem Sound.leftBy (hg : g.Sound) (hbrings : edit.Brings g.table) : (g.leftBy edit).Sound := by
  rcases hg.perform hbrings with ⟨hfails, _⟩ | ⟨g', hmakes, hg', _⟩
  · rwa [hfails.leftBy_eq]
  · rwa [hmakes.leftBy_eq]

/-- A session of edits keeps a graph sound. -/
theorem Sound.afterAll (hstart : start.Sound) (hadmits : start.Admits edits) :
    (start.afterAll edits).Sound := by
  induction edits generalizing start with
  | nil => exact hstart
  | cons edit edits ih => exact ih (hstart.leftBy hadmits.1) hadmits.2

/-- **Editing keeps a graph sound, and a failing edit changes nothing.** Let a session of edits
start from a graph that passes the check, or from a graph without nodes, and let the edges that it
appends come with evidence that was seen and that points inside the table. The graph after any
number of edits passes the check. The next edit fails with that graph untouched, exactly if it
refers to something that is not there; otherwise it makes a graph that passes the check. A node that
is appended comes after all nodes; all labels, targets and evidence stay where they were. An edge
that is appended is found under the name that is returned, which was not in use, and all else stays
where it was. -/
theorem edits_keep_graph_sound (start : Graph) (edits : List Edit) (edit : Edit)
    (hstart : start.check = .ok () ∨ ∃ table, start = empty table)
    (hadmits : start.Admits (edits ++ [edit])) :
    let g := start.afterAll edits
    g.check = .ok () ∧
      ((∃ f, edit.perform g = .error f g ∧ g.apply edit = .error f ∧ ¬ edit.Apt g) ∨
        ∃ g', edit.perform g = .ok () g' ∧ g.apply edit = .ok g' ∧ g'.check = .ok () ∧
          edit.Apt g) ∧
      (∀ label, addNodeInPlace label g = .ok g.nodeCount (g.addNode label).2 ∧
        (g.addNode label).1 = g.nodeCount ∧ g.KeptIn (g.addNode label).2 ∧
        (g.addNode label).2.nodeCount = g.nodeCount + 1 ∧
        (g.addNode label).2.labels[g.nodeCount]? = some label ∧
        ∀ d, d ∈ (g.addNode label).2.edgeIds ↔ d ∈ g.edgeIds) ∧
      ∀ source target e id g', g.addEdge source target e = .ok (id, g') →
        addEdgeInPlace source target e g = .ok id g' ∧ g.KeptIn g' ∧ g'.labels = g.labels ∧
        id ∉ g.edgeIds ∧ id.node = source ∧ g'.targetAt id = .ok target ∧ g'.edgeAt id = .ok e ∧
        ∀ d, d ∈ g'.edgeIds ↔ d ∈ g.edgeIds ∨ d = id := by
  intro g
  have hsound : start.Sound := by
    rcases hstart with hcheck | ⟨table, rfl⟩
    · exact check_eq_ok_iff.mp hcheck
    · exact sound_empty table
  obtain ⟨hbefore, hlast⟩ := admits_append.mp hadmits
  have hg : g.Sound := hsound.afterAll hbefore
  refine ⟨check_eq_ok_iff.mpr hg, ?_, fun label => ?_, fun source target e id g' hadd => ?_⟩
  · rcases hg.perform hlast.1 with ⟨⟨f, hperform, happly⟩, hapt⟩ | ⟨g', hmakes, hg', hapt⟩
    · exact .inl ⟨f, hperform, happly, hapt⟩
    · exact .inr ⟨g', hmakes.1, hmakes.2, check_eq_ok_iff.mpr hg', hapt⟩
  · refine ⟨g.addNodeInPlace_eq label, rfl, hg.keptIn_addNode label, nodeCount_addNode,
      Array.getElem?_push_size, fun d => ?_⟩
    simp only [mem_edgeIds, targetAt_addNode_iff]
  · have hinside := inside_of_addEdge hadd
    obtain ⟨id', g'', hadd', hwrites, hnode, hgains⟩ := hg.gainsEdge hinside.1 hinside.2 e
    obtain ⟨rfl, rfl⟩ := Prod.mk.inj (Except.ok.inj (hadd.symm.trans hadd'))
    exact ⟨hwrites, hgains.keptIn hg, hgains.labels, hgains.fresh, hnode,
      hgains.targetAt_iff.mpr (.inr ⟨rfl, rfl⟩), hgains.edgeAt_iff.mpr (.inr ⟨rfl, rfl⟩),
      fun d => hgains.mem_edgeIds_iff⟩

/-- A session with two edits that fail, an edge out of the graph and a projection that drops the
target of an edge; the edit after it reduces the graph to the cycle of two of its three nodes. -/
theorem edits_keep_graph_sound_reduced :
    let e : Edge := ⟨[⟨⟨[.resolved 0 0 7]⟩, ⟨[.unresolved "?"]⟩, 2⟩]⟩
    let edits : List Edit := [.intern (.line ⟨"f", "f.c", 7⟩), .node "a", .node "b", .node "c",
      .edge 0 1 e, .edge 0 7 e, .edge 1 0 e, .edge 1 2 e, .restrict [0] [⟨0, 0⟩]]
    let g : Graph := ⟨#["a", "b", "c"], #[[e], [e, e], []], #[[1], [0, 2], []],
      ⟨⟨#["f.c"]⟩, ⟨#["f"]⟩⟩⟩
    (empty .empty).Admits (edits ++ [.cycles]) ∧ (empty .empty).afterAll edits = g ∧
      g.check = .ok () ∧
      (∃ g', Edit.cycles.perform g = .ok () g' ∧ g.apply .cycles = .ok g' ∧ g'.check = .ok ()) ∧
      ∃ g', g.addEdge 1 1 e = .ok (⟨1, 2⟩, g') ∧ g.KeptIn g' ∧ g'.targetAt ⟨1, 2⟩ = .ok 1 ∧
        g'.edgeAt ⟨1, 2⟩ = .ok e := by
  intro e edits g
  have hg : (empty .empty).afterAll edits = g := by decide +kernel +revert +zetaReduce
  have he : ∀ p ∈ e.pairs, p.Sound g.table := by
    have hcheck : checkEvidence g.table 0 [e] = .ok () := rfl
    exact checkEvidence_eq_ok_iff.mp hcheck e (List.mem_singleton_self e)
  have hadmits : (empty .empty).Admits (edits ++ [.cycles]) :=
    ⟨trivial, trivial, trivial, trivial, he, he, he, he, trivial, trivial, trivial⟩
  have hsession := edits_keep_graph_sound (empty .empty) edits .cycles (.inr ⟨_, rfl⟩) hadmits
  rw [hg] at hsession
  obtain ⟨hcheck, hedit, _, hedge⟩ := hsession
  obtain ⟨_, hkept, _, _, _, htarget, hevidence, _⟩ := hedge 1 1 e ⟨1, 2⟩ _ rfl
  refine ⟨hadmits, hg, hcheck, ?_, _, rfl, hkept, htarget, hevidence⟩
  rcases hedit with ⟨_, _, _, hapt⟩ | ⟨g', hperform, happly, hsound, _⟩
  · exact absurd trivial hapt
  · exact ⟨g', hperform, happly, hsound⟩

end Graph

end LockOrder
