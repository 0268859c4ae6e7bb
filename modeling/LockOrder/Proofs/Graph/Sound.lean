import LockOrder.Graph.Check
import LockOrder.Proofs.Graph.Basic
import LockOrder.Proofs.StringTable

/-!
# Sound graphs

The arrays of a sound graph run in parallel, its edges end in it, every pair of stacks was seen, and
every frame points inside the stack table. Sound graphs are those that `Graph.check` accepts, and
every checked reading of a node, an edge or a frame of a sound graph succeeds.

## Main definitions

* `StackTable.Holds` — a frame points inside the tables
* `StackPair.Sound`, `Graph.Sound` — the invariants of evidence and of graphs

## Main results

* `Graph.check_eq_ok_iff` — the check accepts exactly the sound graphs
* `Graph.Sound.digraph_closed` — no edge of a sound graph leads out of it
* `Graph.exists_labelAt`, `Graph.Sound.exists_edgeAt` — labels and evidence can be read
* `Graph.sound_of_edges` — soundness from the edges, one by one
-/

namespace LockOrder

/-! ### Frames -/

namespace StackTable

variable {t : StackTable} {pos : Pos} {s : Stack}

/-- A frame points inside both tables. -/
def Holds (t : StackTable) : Pos → Prop
  | .resolved file func _ => file < t.files.size ∧ func < t.funcs.size
  | .unresolved _ => True

theorem check_eq_ok_iff : t.check pos = .ok () ↔ t.Holds pos := by
  cases pos with
  | unresolved text => simp [check, Holds]
  | resolved file func line =>
    rw [check, Holds, ← Nat.not_le, ← Nat.not_le]
    by_cases hfile : t.files.size ≤ file
    · simp [hfile]
    · by_cases hfunc : t.funcs.size ≤ func <;> simp [hfile, hfunc]

theorem exists_frameText (h : t.Holds pos) : ∃ text, t.frameText pos = .ok text := by
  cases pos with
  | unresolved text => exact ⟨text, rfl⟩
  | resolved file func line =>
    obtain ⟨fileName, hfile⟩ := StringTable.exists_get h.1
    obtain ⟨funcName, hfunc⟩ := StringTable.exists_get h.2
    exact ⟨_, by rw [frameText, hfile, hfunc]; rfl⟩

/-- A stack whose frames are in the table can be rendered. -/
theorem exists_stackText (h : ∀ pos ∈ s.frames, t.Holds pos) :
    ∃ text, t.stackText s = .ok text := by
  obtain ⟨texts, htexts⟩ := Outcome.exists_mapM_eq_ok fun pos hpos => exists_frameText (h pos hpos)
  exact ⟨_, by rw [stackText, htexts]; rfl⟩

end StackTable

/-! ### Graphs -/

/-- A pair of stacks was seen, and its frames point inside the table. -/
structure StackPair.Sound (table : StackTable) (p : StackPair) : Prop where
  /-- The pair was seen. -/
  count_pos : 0 < p.count
  /-- The frames of the first stack are in the table. -/
  first : ∀ pos ∈ p.first.frames, table.Holds pos
  /-- The frames of the second stack are in the table. -/
  second : ∀ pos ∈ p.second.frames, table.Holds pos

namespace Graph

variable {g : Graph} {e : EdgeId} {edge : Edge} {v : Nat}

/-- The arrays of a graph run in parallel, its edges end in it, and its evidence is sound. -/
structure Sound (g : Graph) : Prop where
  /-- Every node has a list of evidence. -/
  edges_size : g.edges.size = g.nodeCount
  /-- Every node has a list of targets. -/
  targets_size : g.targets.size = g.nodeCount
  /-- There is evidence for as many edges of a node as there are targets. -/
  degree : ∀ (node : Nat) edges targets, g.edges[node]? = some edges →
    g.targets[node]? = some targets → edges.length = targets.length
  /-- Every target is a node. -/
  inside : ∀ (node : Nat) targets, g.targets[node]? = some targets → ∀ t ∈ targets, t < g.nodeCount
  /-- The evidence of every edge is sound. -/
  evidence : ∀ (node : Nat) edges, g.edges[node]? = some edges →
    ∀ edge ∈ edges, ∀ p ∈ edge.pairs, p.Sound g.table

theorem checkNode_eq_ok_iff {n node : Nat} {edges : List Edge} {targets : List Nat} :
    checkNode n node edges targets = .ok () ↔
      edges.length = targets.length ∧ ∀ t ∈ targets, t < n := by
  unfold checkNode
  by_cases hlength : edges.length = targets.length
  · cases hfind : targets.find? fun t => n ≤ t with
    | none => simpa [hlength] using List.find?_eq_none.mp hfind
    | some t =>
      have hmem := List.mem_of_find?_eq_some hfind
      have hle : n ≤ t := by simpa using List.find?_some hfind
      simp only [hlength, ne_eq, not_true_eq_false, if_false, reduceCtorEq, true_and, false_iff]
      exact fun hall => Nat.not_lt.mpr hle (hall t hmem)
  · simp [hlength]

theorem checkPair_eq_ok_iff {table : StackTable} {p : StackPair} :
    checkPair table e p = .ok () ↔ p.Sound table := by
  have hframe : ∀ pos, (table.check pos).mapError (Flaw.frame e) = .ok () ↔ table.Holds pos := by
    intro pos
    rw [← StackTable.check_eq_ok_iff]
    cases table.check pos <;> simp [Except.mapError]
  unfold checkPair
  by_cases hcount : p.count = 0
  · simp only [hcount, if_true]
    exact iff_of_false nofun fun h => Nat.ne_of_gt h.count_pos hcount
  · simp only [hcount, if_false]
    change List.forM _ _ = _ ↔ _
    simp only [Outcome.forM_eq_ok_iff, hframe, List.forall_mem_append]
    exact ⟨fun h => ⟨Nat.pos_of_ne_zero hcount, h.1, h.2⟩, fun h => ⟨h.first, h.second⟩⟩

theorem checkEvidence_eq_ok_iff {table : StackTable} {node : Nat} {edges : List Edge} :
    checkEvidence table node edges = .ok () ↔
      ∀ edge ∈ edges, ∀ p ∈ edge.pairs, p.Sound table := by
  simp only [checkEvidence, Outcome.forM_eq_ok_iff, checkPair_eq_ok_iff, Prod.forall,
    List.mem_zipIdx_iff_getElem?]
  constructor
  · intro h edge hedge
    obtain ⟨i, hi⟩ := List.mem_iff_getElem?.mp hedge
    exact h edge i hi
  · intro h edge i hi
    exact h edge (List.mem_of_getElem? hi)

/-- The check accepts exactly the sound graphs. -/
theorem check_eq_ok_iff : g.check = .ok () ↔ g.Sound := by
  unfold check
  by_cases hsizes : g.edges.size ≠ g.nodeCount ∨ g.targets.size ≠ g.nodeCount
  · simp only [hsizes, if_true]
    exact iff_of_false nofun fun h => hsizes.elim (· h.edges_size) (· h.targets_size)
  · simp only [hsizes, if_false]
    push Not at hsizes
    change (List.forM _ _ >>= fun _ => List.forM _ _) = _ ↔ _
    simp only [Outcome.check_bind_eq_ok_iff, Outcome.forM_eq_ok_iff, checkNode_eq_ok_iff,
      checkEvidence_eq_ok_iff, Prod.forall, List.mem_zipIdx_iff_getElem?, List.getElem?_zip_eq_some,
      Array.getElem?_toList]
    constructor
    · rintro ⟨hnodes, hevidence⟩
      refine ⟨hsizes.1, hsizes.2, fun node edges targets hedges htargets => ?_,
        fun node targets htargets => ?_, fun node edges => hevidence edges node⟩
      · exact (hnodes edges targets node ⟨hedges, htargets⟩).1
      · have hlt : node < g.edges.size :=
          hsizes.1.trans hsizes.2.symm ▸ (Array.getElem?_eq_some_iff.mp htargets).1
        exact (hnodes _ targets node ⟨Array.getElem?_eq_getElem hlt, htargets⟩).2
    · intro h
      exact ⟨fun edges targets node hnode =>
        ⟨h.degree node edges targets hnode.1 hnode.2, h.inside node targets hnode.2⟩,
        fun edges node => h.evidence node edges⟩

/-! ### Reading a sound graph -/

/-- No edge of a sound graph leads out of it. -/
theorem Sound.digraph_closed (h : g.Sound) : g.digraph.Closed := by
  refine ⟨Nat.le_of_eq h.targets_size.symm, fun u hu v hv => ?_⟩
  have hlt : u < g.targets.size := h.targets_size ▸ hu
  refine h.inside u g.targets[u] (Array.getElem?_eq_getElem hlt) v ?_
  simpa [digraph, Digraph.targets, hlt] using hv

theorem exists_labelAt (start : String) (hv : v < g.nodeCount) :
    ∃ label, g.labelAt start v = .ok label := by
  have hlabel : arrayAt g.labels v = .ok g.labels[v] :=
    arrayAt_eq_ok_iff.mpr (Array.getElem?_eq_getElem hv)
  exact ⟨stripStart start g.labels[v], by rw [labelAt, hlabel]; rfl⟩

theorem Sound.node_lt (h : g.Sound) (he : g.targetAt e = .ok v) : e.node < g.nodeCount := by
  obtain ⟨targets, htargets, _⟩ := targetAt_eq_ok_iff_exists.mp he
  rw [← h.targets_size]
  exact (Array.getElem?_eq_some_iff.mp htargets).1

theorem Sound.target_lt (h : g.Sound) (he : g.targetAt e = .ok v) : v < g.nodeCount :=
  h.digraph_closed.inside e.node (h.node_lt he) v (List.mem_of_getElem? (targetAt_eq_ok_iff.mp he))

/-- There is evidence for each of the out-edges of a node. -/
theorem Sound.forall₂_edgeAt (h : g.Sound) {edges : List Edge} (hedges : g.edges[v]? = some edges) :
    List.Forall₂ (fun e edge => g.edgeAt e = .ok edge) (g.digraph.edgesFrom v) edges := by
  have hlt : v < g.targets.size :=
    h.targets_size ▸ h.edges_size ▸ (Array.getElem?_eq_some_iff.mp hedges).1
  have hlength : (g.digraph.targets v).length = edges.length := by
    rw [h.degree v edges g.targets[v] hedges (Array.getElem?_eq_getElem hlt)]
    simp [digraph, Digraph.targets, hlt]
  rw [Digraph.edgesFrom, hlength, List.forall₂_map_left_iff]
  exact forall₂_range fun i edge hedge => edgeAt_eq_ok_iff.mpr ⟨edges, hedges, hedge⟩

/-- The evidence of an edge can be read. -/
theorem Sound.exists_edgeAt (h : g.Sound) (he : g.targetAt e = .ok v) :
    ∃ edge, g.edgeAt e = .ok edge ∧ ∀ p ∈ edge.pairs, p.Sound g.table := by
  have hnode : e.node < g.edges.size := h.edges_size ▸ h.node_lt he
  have hedges : g.edges[e.node]? = some g.edges[e.node] := Array.getElem?_eq_getElem hnode
  obtain ⟨targets, htargets, htarget⟩ := targetAt_eq_ok_iff_exists.mp he
  have hdegree := h.degree e.node _ _ hedges htargets
  have hedge : e.edge < g.edges[e.node].length :=
    hdegree ▸ (List.getElem?_eq_some_iff.mp htarget).1
  exact ⟨g.edges[e.node][e.edge],
    edgeAt_eq_ok_iff.mpr ⟨_, hedges, List.getElem?_eq_getElem hedge⟩,
    h.evidence e.node _ hedges _ (List.getElem_mem hedge)⟩

/-- An edge with evidence has a target. -/
theorem Sound.exists_targetAt (h : g.Sound) (he : g.edgeAt e = .ok edge) :
    ∃ v, g.targetAt e = .ok v := by
  obtain ⟨edges, hedges, hedge⟩ := edgeAt_eq_ok_iff.mp he
  have hnode : e.node < g.targets.size :=
    h.targets_size ▸ h.edges_size ▸ (Array.getElem?_eq_some_iff.mp hedges).1
  have htargets : g.targets[e.node]? = some g.targets[e.node] := Array.getElem?_eq_getElem hnode
  have hlt : e.edge < g.targets[e.node].length :=
    h.degree e.node _ _ hedges htargets ▸ (List.getElem?_eq_some_iff.mp hedge).1
  exact ⟨_, targetAt_eq_ok_iff_exists.mpr ⟨_, htargets, List.getElem?_eq_getElem hlt⟩⟩

/-- The edges with evidence are those with a target. -/
theorem Sound.exists_edgeAt_iff (h : g.Sound) :
    (∃ edge, g.edgeAt e = .ok edge) ↔ ∃ v, g.targetAt e = .ok v := by
  constructor
  · rintro ⟨edge, hedge⟩
    exact h.exists_targetAt hedge
  · rintro ⟨v, hv⟩
    obtain ⟨edge, hedge, _⟩ := h.exists_edgeAt hv
    exact ⟨edge, hedge⟩

/-- The evidence of an edge is sound. -/
theorem Sound.sound_of_edgeAt (h : g.Sound) (he : g.edgeAt e = .ok edge) :
    ∀ p ∈ edge.pairs, p.Sound g.table := by
  obtain ⟨edges, hedges, hedge⟩ := edgeAt_eq_ok_iff.mp he
  exact h.evidence e.node edges hedges edge (List.mem_of_getElem? hedge)

/-- A graph is sound if its arrays have the same size and its edges, read one by one, have both a
target inside the graph and sound evidence, or neither. -/
theorem sound_of_edges (hedges : g.edges.size = g.nodeCount)
    (htargets : g.targets.size = g.nodeCount)
    (hboth : ∀ e, (∃ edge, g.edgeAt e = .ok edge) ↔ ∃ v, g.targetAt e = .ok v)
    (hinside : ∀ e v, g.targetAt e = .ok v → v < g.nodeCount)
    (hevidence : ∀ e edge, g.edgeAt e = .ok edge → ∀ p ∈ edge.pairs, p.Sound g.table) :
    g.Sound where
  edges_size := hedges
  targets_size := htargets
  degree node edges targets hnode hnode' := by
    -- a position is in one list exactly if it is in the other
    have hpos : ∀ i, i < edges.length ↔ i < targets.length := by
      intro i
      have h := hboth ⟨node, i⟩
      simpa [edgeAt_eq_ok_iff, targetAt_eq_ok_iff_exists, hnode, hnode',
        List.getElem?_eq_some_iff] using h
    have hedges := hpos edges.length
    have htargets := hpos targets.length
    omega
  inside node targets hnode t ht := by
    obtain ⟨i, hi⟩ := List.mem_iff_getElem?.mp ht
    exact hinside ⟨node, i⟩ t (targetAt_eq_ok_iff_exists.mpr ⟨targets, hnode, hi⟩)
  evidence node edges hnode edge hedge := by
    obtain ⟨i, hi⟩ := List.mem_iff_getElem?.mp hedge
    exact hevidence ⟨node, i⟩ edge (edgeAt_eq_ok_iff.mpr ⟨edges, hnode, hi⟩)

end Graph

end LockOrder
