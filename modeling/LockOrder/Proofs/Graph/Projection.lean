import LockOrder.Proofs.Dictionary
import LockOrder.Proofs.Graph.Restrict

/-!
# What a projection keeps

A projection is made by putting in one node after another and then one edge after another, with a
dictionary of the places that the nodes have in the projection. Nodes may be listed in any order and
more than once; a node that is listed again is found at its last place only. What comes of it is the
same as the projection that is read off the lists, and the lists say which nodes and edges it has.

## Main definitions

* `Graph.Projection` — a projection in the making
* `Graph.project` — the projection, made step by step
* `Graph.IsProjection` — what the lists of nodes and edges say about a projection

## Main results

* `Graph.project_eq` — step by step, the projection is the same
* `Graph.restrict_exact` — when there is a projection, and what it is
-/

namespace LockOrder.Graph

variable {g h : Graph} {nodes : List Nat} {edges : List EdgeId} {labels : List String}

/-! ### Step by step -/

/-- A projection in the making. -/
structure Projection where
  /-- The place of each node that was put in. -/
  places : Dictionary Nat Nat
  /-- What was put in. -/
  graph : Graph

/-- Puts a node of `g` at the next place. A node that was put in before has its place there now. -/
def Projection.addNode (g : Graph) (d : Projection) (v : Nat) : Except Fault Projection := do
  let label ← arrayAt g.labels v
  return ⟨d.places.insert v (d.graph.addNode label).1, (d.graph.addNode label).2⟩

/-- Puts an edge of `g` last among the out-edges at the place of its source. -/
def Projection.addEdge (g : Graph) (d : Projection) (e : EdgeId) : Except Fault Projection := do
  let target ← g.targetAt e
  match d.places.get? e.node with
  | none => throw (.sourceDropped e)
  | some newSource =>
    match d.places.get? target with
    | none => throw (.targetDropped e target)
    | some newTarget =>
      let edge ← g.edgeAt e
      return { d with graph := (← d.graph.addEdge newSource newTarget edge).2 }

/-- The projection, made one node and then one edge after another. -/
def project (g : Graph) (nodes : List Nat) (edges : List EdgeId) : Except Fault Graph := do
  let d ← nodes.foldlM (Projection.addNode g) ⟨.empty, .empty g.table⟩
  return (← edges.foldlM (Projection.addEdge g) d).graph

/-- The graph of labels and projected edges. -/
def assemble (table : StackTable) (labels : List String) (kept : List (Nat × Edge × Nat)) :
    Graph where
  labels := labels.toArray
  edges := buckets labels.length (kept.map fun k => (k.1, k.2.1))
  targets := buckets labels.length (kept.map fun k => (k.1, k.2.2))
  table := table

theorem addNode_assemble (table : StackTable) (labels : List String) (label : String) :
    (assemble table labels []).addNode label =
      (labels.length, assemble table (labels ++ [label]) []) := by
  simp [addNode, assemble, nodeCount, buckets, Array.replicate_succ]

theorem addEdge_assemble {source target : Nat} (table : StackTable)
    (kept : List (Nat × Edge × Nat)) (edge : Edge) (hsource : source < labels.length)
    (htarget : target < labels.length) :
    ∃ id, (assemble table labels kept).addEdge source target edge =
      .ok (id, assemble table labels (kept ++ [(source, edge, target)])) := by
  -- both ends are nodes, and both arrays have a list at the source
  have hinside : ¬ (labels.length ≤ source ∨ labels.length ≤ target) := by omega
  obtain ⟨es, hes, hedges⟩ := buckets_concat hsource (kept.map fun k => (k.1, k.2.1)) edge
  obtain ⟨ts, hts, htargets⟩ := buckets_concat hsource (kept.map fun k => (k.1, k.2.2)) target
  refine ⟨⟨source, ts.length⟩, ?_⟩
  have hcount : (assemble table labels kept).nodeCount = labels.length := List.size_toArray
  rw [addEdge, hcount, if_neg hinside]
  change (arrayAt (buckets _ _) source >>= fun _ => arrayAt (buckets _ _) source >>= fun _ => _) = _
  rw [arrayAt_eq_ok_iff.mpr hes, arrayAt_eq_ok_iff.mpr hts]
  simp only [assemble, List.map_append, List.map_cons, List.map_nil, hedges, htargets]
  rfl

/-- After any nodes, the next one is put in if it is a node. -/
theorem Projection.addNode_eq (hlength : nodes.length = labels.length) (v : Nat) :
    Projection.addNode g ⟨.positions nodes, assemble g.table labels []⟩ v =
      (arrayAt g.labels v).map fun label =>
        ⟨.positions (nodes ++ [v]), assemble g.table (labels ++ [label]) []⟩ := by
  rw [Projection.addNode]
  cases arrayAt g.labels v with
  | error f => rfl
  | ok label =>
    change Except.ok _ = Except.ok _
    rw [addNode_assemble, ← hlength, ← Dictionary.positions_concat]

/-- After all nodes and any edges, the next edge is put in if its ends have places. -/
theorem Projection.addEdge_eq (hlength : nodes.length = labels.length)
    (kept : List (Nat × Edge × Nat)) (e : EdgeId) :
    Projection.addEdge g ⟨.positions nodes, assemble g.table labels kept⟩ e =
      (g.projectEdge nodes e).map fun k =>
        ⟨.positions nodes, assemble g.table labels (kept ++ [k])⟩ := by
  have hplace : ∀ {v place}, lastIndex? v nodes = some place → place < labels.length := by
    intro v place hv
    rw [← hlength]
    exact (List.getElem?_eq_some_iff.mp (getElem?_of_lastIndex? hv)).1
  rw [Projection.addEdge, projectEdge]
  simp only [Dictionary.get?_positions, bind, Except.bind]
  cases g.targetAt e with
  | error f => rfl
  | ok target =>
    cases hsource : lastIndex? e.node nodes with
    | none => rfl
    | some newSource =>
      cases hnew : lastIndex? target nodes with
      | none =>
        simp only [hnew]
        rfl
      | some newTarget =>
        simp only [hnew]
        cases g.edgeAt e with
        | error f => rfl
        | ok edge =>
          -- places are inside, so that appending the edge cannot fail
          obtain ⟨id, hadd⟩ := addEdge_assemble g.table kept edge (hplace hsource) (hplace hnew)
          simp only [hadd]
          rfl

theorem foldlM_addNode (g : Graph) (nodes : List Nat) :
    nodes.foldlM (Projection.addNode g) ⟨.empty, .empty g.table⟩ =
      (nodes.mapM (arrayAt g.labels)).map fun labels =>
        ⟨.positions nodes, assemble g.table labels []⟩ := by
  let state (done : List Nat) (labels : List String) : Projection :=
    ⟨.positions done, assemble g.table labels []⟩
  exact Outcome.foldlM_eq_map_mapM state
    (fun _ _ v hlength => Projection.addNode_eq hlength v) nodes

theorem foldlM_addEdge (g : Graph) (hlength : nodes.length = labels.length) (edges : List EdgeId) :
    edges.foldlM (Projection.addEdge g) ⟨.positions nodes, assemble g.table labels []⟩ =
      (edges.mapM (g.projectEdge nodes)).map fun kept =>
        ⟨.positions nodes, assemble g.table labels kept⟩ := by
  let state (_ : List EdgeId) (kept : List (Nat × Edge × Nat)) : Projection :=
    ⟨.positions nodes, assemble g.table labels kept⟩
  exact Outcome.foldlM_eq_map_mapM state
    (fun _ kept e _ => Projection.addEdge_eq hlength kept e) edges

/-- Step by step, the projection is the same, and it fails in the same way. -/
theorem project_eq (g : Graph) (nodes : List Nat) (edges : List EdgeId) :
    g.project nodes edges = g.restrict nodes edges := by
  rw [project, foldlM_addNode, restrict]
  cases hlabels : nodes.mapM (arrayAt g.labels) with
  | error f => rfl
  | ok labels =>
    have hlength : nodes.length = labels.length := (Outcome.mapM_eq_ok_iff.mp hlabels).length_eq
    change (edges.foldlM (Projection.addEdge g)
      ⟨.positions nodes, assemble g.table labels []⟩ >>= _) = _
    -- the edges find the places that the nodes have left
    rw [foldlM_addEdge g hlength, hlength]
    cases edges.mapM (g.projectEdge nodes) <;> rfl

/-! ### What the lists say -/

/-- `h` is `g` with the nodes and the edges of two lists. A node that stands in the list is found at
its last place. -/
structure IsProjection (g : Graph) (nodes : List Nat) (edges : List EdgeId) (h : Graph) :
    Prop where
  /-- The nodes are the listed ones, in order, with their labels. -/
  labels : List.Forall₂ (fun v label => g.labels[v]? = some label) nodes h.labels.toList
  edges_size : h.edges.size = nodes.length
  targets_size : h.targets.size = nodes.length
  /-- The evidence at a place is that of the listed edges whose source is found there, in order. -/
  evidence : ∀ (k : Nat) es, h.edges[k]? = some es →
    List.Forall₂ (fun e edge => g.edgeAt e = .ok edge)
      (edges.filter fun e => LastAt nodes e.node k) es
  /-- The targets at a place are where the targets of these edges are found. -/
  targets : ∀ (k : Nat) ts, h.targets[k]? = some ts →
    List.Forall₂ (fun e t => ∃ target, g.targetAt e = .ok target ∧ LastAt nodes target t)
      (edges.filter fun e => LastAt nodes e.node k) ts
  table : h.table = g.table

/-- The listed edges at a place are those whose source stands there last. -/
theorem listedAt_eq_filter (nodes : List Nat) (edges : List EdgeId) (k : Nat) :
    listedAt nodes edges k = edges.filter fun e => LastAt nodes e.node k :=
  List.filter_congr fun _ _ => decide_eq_decide.mpr lastIndex?_eq_some_iff

theorem isProjection_of_restrict (hh : g.restrict nodes edges = .ok h) :
    IsProjection g nodes edges h := by
  constructor
  case labels =>
    obtain ⟨labels, kept, hlabels, _, rfl⟩ := restrict_eq_ok_iff.mp hh
    exact hlabels
  case edges_size => exact (sizes_restrict hh).1
  case targets_size => exact (sizes_restrict hh).2
  case evidence =>
    intro k es hes
    rw [← listedAt_eq_filter]
    exact forall₂_edges_restrict hh hes
  case targets =>
    intro k ts hts
    rw [← listedAt_eq_filter]
    refine (forall₂_targets_restrict hh hts).imp fun e t hlands => ?_
    obtain ⟨target, htarget, hlast⟩ := hlands
    exact ⟨target, htarget, lastIndex?_eq_some_iff.mp hlast⟩
  case table => exact table_restrict hh

/-- The lists determine the projection. -/
theorem IsProjection.unique {h' : Graph} (hh : IsProjection g nodes edges h)
    (hh' : IsProjection g nodes edges h') : h = h' := by
  have hlabels : h.labels.toList = h'.labels.toList :=
    List.right_unique_forall₂' (fun _ _ _ hb hc => Option.some.inj (hb.symm.trans hc))
      hh.labels hh'.labels
  -- a target has one place, because a node stands last in one place only
  have hlands : Relator.RightUnique fun (e : EdgeId) t =>
      ∃ target, g.targetAt e = .ok target ∧ LastAt nodes target t := by
    rintro e t t' ⟨target, htarget, hlast⟩ ⟨target', htarget', hlast'⟩
    obtain rfl := Except.ok.inj (htarget.symm.trans htarget')
    exact hlast.unique hlast'
  have hedges : h.edges = h'.edges :=
    array_eq_of_forall₂ (Outcome.rightUnique_ok g.edgeAt) _
      (hh.edges_size.trans hh'.edges_size.symm) hh.evidence hh'.evidence
  have htargets : h.targets = h'.targets :=
    array_eq_of_forall₂ hlands _ (hh.targets_size.trans hh'.targets_size.symm)
      hh.targets hh'.targets
  change Graph.mk h.labels h.edges h.targets h.table = _
  rw [Array.toList_inj.mp hlabels, hedges, htargets, hh.table, ← hh'.table]

/-- There is no projection of a sound graph exactly if something is listed that the graph does not
have, or an end of a listed edge is not listed. -/
theorem Sound.exists_error_restrict_iff (hg : g.Sound) :
    (∃ f, g.restrict nodes edges = .error f) ↔
      (∃ v ∈ nodes, ¬ v < g.nodeCount) ∨ (∃ e ∈ edges, e ∉ g.edgeIds) ∨
        ∃ e ∈ edges, e.node ∉ nodes ∨ ∃ t, g.targetAt e = .ok t ∧ t ∉ nodes := by
  have hfails : (∃ f, g.restrict nodes edges = .error f) ↔
      ¬ ∃ h, g.restrict nodes edges = .ok h := by
    cases g.restrict nodes edges <;> simp
  rw [hfails, hg.exists_restrict_iff]
  constructor
  · intro hnone
    by_contra hlisted
    push Not at hlisted
    obtain ⟨hnodes, hedges, hends⟩ := hlisted
    refine hnone ⟨hnodes, fun e he => ⟨(hends e he).1, ?_⟩⟩
    obtain ⟨t, ht⟩ := mem_edgeIds.mp (hedges e he)
    exact ⟨t, (hends e he).2 t ht, ht⟩
  · rintro (⟨v, hv, hout⟩ | ⟨e, he, hout⟩ | ⟨e, he, hout⟩) ⟨hnodes, hedges⟩
    · exact hout (hnodes v hv)
    · obtain ⟨_, t, _, ht⟩ := hedges e he
      exact hout (mem_edgeIds.mpr ⟨t, ht⟩)
    · obtain ⟨hsource, t, hmem, ht⟩ := hedges e he
      rcases hout with hout | ⟨t', ht', hout⟩
      · exact hout hsource
      · exact hout (Except.ok.inj (ht'.symm.trans ht) ▸ hmem)

/-- **A projection is exact, or there is none.** For a graph that passes the check and any lists of
nodes and edges, in any order and with any repetitions, the projection fails exactly if a listed
node is not a node of the graph, a listed edge is not an edge of the graph, or an end of a listed
edge is not listed. Otherwise it is the one graph with the listed nodes and edges: its nodes are the
entries of the list of nodes, in order, with their labels; the out-edges at a place are, in order,
the listed edges whose source stands there last, with their evidence, and they lead to where their
targets stand last; and the table is that of the graph. It passes the check. The projection onto all
nodes and all edges is the graph itself. To put in one node and one edge after another comes to the
same. -/
theorem restrict_exact (g : Graph) (hg : g.check = .ok ()) (nodes : List Nat)
    (edges : List EdgeId) :
    ((∃ f, g.restrict nodes edges = .error f) ↔
      (∃ v ∈ nodes, ¬ v < g.nodeCount) ∨ (∃ e ∈ edges, e ∉ g.edgeIds) ∨
        ∃ e ∈ edges, e.node ∉ nodes ∨ ∃ t, g.targetAt e = .ok t ∧ t ∉ nodes) ∧
    (∀ h, g.restrict nodes edges = .ok h → IsProjection g nodes edges h ∧
      (∀ h', IsProjection g nodes edges h' → h' = h) ∧ h.check = .ok ()) ∧
    g.restrict (List.range g.nodeCount) g.edgeIds = .ok g ∧
    g.project nodes edges = g.restrict nodes edges := by
  have hsound : g.Sound := check_eq_ok_iff.mp hg
  refine ⟨hsound.exists_error_restrict_iff, fun h hh => ?_, hsound.restrict_all, project_eq g _ _⟩
  have hprojection := isProjection_of_restrict hh
  exact ⟨hprojection, fun h' hh' => hh'.unique hprojection,
    check_eq_ok_iff.mpr (hsound.restrict hh)⟩

/-- A node and an edge that are listed twice, in an order that is not that of the graph; and an edge
whose target is not listed. -/
theorem restrict_exact_repeated :
    let e (count : Nat) : Edge := ⟨[⟨⟨[.resolved 0 0 7]⟩, ⟨[]⟩, count⟩]⟩
    let g : Graph := ⟨#["a", "b", "c"], #[[e 1, e 2], [], [e 3]], #[[1, 2], [], [0]],
      ⟨⟨#["f.c"]⟩, ⟨#["f"]⟩⟩⟩
    let h : Graph := ⟨#["c", "a", "c"], #[[], [e 2, e 2], [e 3]], #[[], [2, 2], [1]], g.table⟩
    let edges : List EdgeId := [⟨0, 1⟩, ⟨2, 0⟩, ⟨0, 1⟩]
    g.check = .ok () ∧ g.restrict [2, 0, 2] edges = .ok h ∧ IsProjection g [2, 0, 2] edges h ∧
      h.check = .ok () ∧ (∃ f, g.restrict [2, 0] [⟨0, 0⟩] = .error f) ∧
      g.restrict [0, 1, 2] g.edgeIds = .ok g := by
  intro e g h edges
  have hg : g.check = .ok () := rfl
  have hh : g.restrict [2, 0, 2] edges = .ok h := rfl
  obtain ⟨_, hprojection, hall, _⟩ := restrict_exact g hg [2, 0, 2] edges
  obtain ⟨hfails, _⟩ := restrict_exact g hg [2, 0] [⟨0, 0⟩]
  obtain ⟨hexact, _, hcheck⟩ := hprojection h hh
  refine ⟨hg, hh, hexact, hcheck, hfails.mpr (.inr (.inr ⟨⟨0, 0⟩, ?_⟩)), hall⟩
  exact ⟨List.mem_singleton_self _, .inr ⟨1, rfl, by decide⟩⟩

end LockOrder.Graph
