import LockOrder.Graph.Edit
import LockOrder.Proofs.Graph.Sound

/-!
# Projections of lock graphs

A projection of a sound graph onto nodes of it and onto edges between them exists and is sound. Its
out-edges at a place are the listed edges whose source has that place, in the order of the list,
with the evidence that they had. The projection onto all nodes and all edges is the graph itself.

## Main results

* `Graph.Sound.exists_restrict`, `Graph.Sound.exists_restrict_iff` — when there is a projection
* `Graph.Sound.restrict` — a projection of a sound graph is sound
* `Graph.step_restrict_iff` — the edges of a projection
* `Graph.Sound.restrict_all` — the projection onto everything
-/

namespace LockOrder.Graph

variable {g h : Graph} {nodes : List Nat} {edges : List EdgeId} {e : EdgeId} {i j : Nat}

/-! ### Projected edges -/

/-- Where the projection onto `nodes` has the target of an edge. -/
def Lands (g : Graph) (nodes : List Nat) (e : EdgeId) (i : Nat) : Prop :=
  ∃ target, g.targetAt e = .ok target ∧ lastIndex? target nodes = some i

theorem projectEdge_eq_ok_iff {edge : Edge} :
    g.projectEdge nodes e = .ok (i, edge, j) ↔
      lastIndex? e.node nodes = some i ∧ g.edgeAt e = .ok edge ∧ g.Lands nodes e j := by
  rw [projectEdge, Outcome.bind_eq_ok_iff, Lands]
  constructor
  · rintro ⟨target, htarget, hkept⟩
    cases hsource : lastIndex? e.node nodes with
    | none =>
      rw [hsource] at hkept
      cases hkept
    | some newSource =>
      cases hnew : lastIndex? target nodes with
      | none =>
        simp only [hsource, hnew] at hkept
        cases hkept
      | some newTarget =>
        simp only [hsource, hnew] at hkept
        obtain ⟨edge', hedge, heq⟩ := Outcome.bind_eq_ok_iff.mp hkept
        cases heq
        exact ⟨rfl, hedge, target, htarget, hnew⟩
  · rintro ⟨hsource, hedge, target, htarget, hnew⟩
    refine ⟨target, htarget, ?_⟩
    simp only [hsource, hnew, hedge]
    rfl

/-- A projection is made of the labels of the nodes and of the projected edges. -/
theorem restrict_eq_ok_iff :
    g.restrict nodes edges = .ok h ↔ ∃ labels kept,
      List.Forall₂ (fun v label => g.labels[v]? = some label) nodes labels ∧
      List.Forall₂ (fun e k => g.projectEdge nodes e = .ok k) edges kept ∧
      h = {
        labels := labels.toArray
        edges := buckets nodes.length (kept.map fun (source, e, _) => (source, e))
        targets := buckets nodes.length (kept.map fun (source, _, target) => (source, target))
        table := g.table } := by
  rw [restrict, Outcome.bind_eq_ok_iff]
  constructor
  · rintro ⟨labels, hlabels, hrest⟩
    obtain ⟨kept, hkept, heq⟩ := Outcome.bind_eq_ok_iff.mp hrest
    refine ⟨labels, kept, ?_, Outcome.mapM_eq_ok_iff.mp hkept, (Except.ok.inj heq).symm⟩
    simpa only [arrayAt_eq_ok_iff] using Outcome.mapM_eq_ok_iff.mp hlabels
  · rintro ⟨labels, kept, hlabels, hkept, rfl⟩
    refine ⟨labels, Outcome.mapM_eq_ok_iff.mpr (by simpa only [arrayAt_eq_ok_iff]), ?_⟩
    rw [Outcome.mapM_eq_ok_iff.mpr hkept]
    rfl

/-- A projection onto nodes of a sound graph exists if the ends of the edges are among the nodes. -/
theorem Sound.exists_restrict (hg : g.Sound) (hnodes : ∀ v ∈ nodes, v < g.nodeCount)
    (hedges : ∀ e ∈ edges, e.node ∈ nodes ∧ ∃ t ∈ nodes, g.targetAt e = .ok t) :
    ∃ h, g.restrict nodes edges = .ok h := by
  obtain ⟨labels, hlabels⟩ : ∃ labels, nodes.mapM (arrayAt g.labels) = .ok labels := by
    refine Outcome.exists_mapM_eq_ok fun v hv => ?_
    have hlt : v < g.labels.size := hnodes v hv
    exact ⟨g.labels[v], arrayAt_eq_ok_iff.mpr (Array.getElem?_eq_getElem hlt)⟩
  obtain ⟨kept, hkept⟩ : ∃ kept, edges.mapM (g.projectEdge nodes) = .ok kept := by
    refine Outcome.exists_mapM_eq_ok fun e he => ?_
    obtain ⟨hsource, t, ht, htarget⟩ := hedges e he
    obtain ⟨edge, hedge, _⟩ := hg.exists_edgeAt htarget
    obtain ⟨i, hi⟩ := Option.ne_none_iff_exists'.mp fun h => lastIndex?_eq_none_iff.mp h hsource
    obtain ⟨j, hj⟩ := Option.ne_none_iff_exists'.mp fun h => lastIndex?_eq_none_iff.mp h ht
    exact ⟨(i, edge, j), projectEdge_eq_ok_iff.mpr ⟨hi, hedge, t, htarget, hj⟩⟩
  exact ⟨_, by rw [restrict, hlabels, hkept]; rfl⟩

/-- There is a projection of a sound graph exactly if it is onto nodes of the graph, and onto edges
of the graph whose ends are among the nodes. -/
theorem Sound.exists_restrict_iff (hg : g.Sound) :
    (∃ h, g.restrict nodes edges = .ok h) ↔ (∀ v ∈ nodes, v < g.nodeCount) ∧
      ∀ e ∈ edges, e.node ∈ nodes ∧ ∃ t ∈ nodes, g.targetAt e = .ok t := by
  constructor
  · rintro ⟨h, hh⟩
    obtain ⟨labels, kept, hlabels, hkept, _⟩ := restrict_eq_ok_iff.mp hh
    refine ⟨fun v hv => ?_, fun e he => ?_⟩
    · obtain ⟨label, _, hlabel⟩ := Outcome.exists_right_of_forall₂ hlabels hv
      exact (Array.getElem?_eq_some_iff.mp hlabel).1
    · obtain ⟨⟨i, edge, j⟩, _, hproject⟩ := Outcome.exists_right_of_forall₂ hkept he
      obtain ⟨hsource, _, target, htarget, hland⟩ := projectEdge_eq_ok_iff.mp hproject
      exact ⟨List.mem_of_getElem? (getElem?_of_lastIndex? hsource), target,
        List.mem_of_getElem? (getElem?_of_lastIndex? hland), htarget⟩
  · rintro ⟨hnodes, hedges⟩
    exact hg.exists_restrict hnodes hedges

/-! ### The parts of a projection -/

theorem nodeCount_restrict (hh : g.restrict nodes edges = .ok h) : h.nodeCount = nodes.length := by
  obtain ⟨labels, kept, hlabels, _, rfl⟩ := restrict_eq_ok_iff.mp hh
  exact hlabels.length_eq.symm

theorem table_restrict (hh : g.restrict nodes edges = .ok h) : h.table = g.table := by
  obtain ⟨labels, kept, _, _, rfl⟩ := restrict_eq_ok_iff.mp hh
  rfl

/-- The listed edges whose source has a place, in order. -/
def listedAt (nodes : List Nat) (edges : List EdgeId) (i : Nat) : List EdgeId :=
  edges.filter fun e => lastIndex? e.node nodes = some i

/-- The projected edges at a place are the listed edges there. -/
theorem forall₂_listedAt {kept : List (Nat × Edge × Nat)}
    (hkept : List.Forall₂ (fun e k => g.projectEdge nodes e = .ok k) edges kept) (i : Nat) :
    List.Forall₂ (fun e k => g.projectEdge nodes e = .ok k) (listedAt nodes edges i)
      (kept.filter fun k => k.1 = i) := by
  refine List.rel_filter (fun e k hk => ?_) hkept
  have hsource := (projectEdge_eq_ok_iff.mp hk).1
  simp [hsource]

/-- The evidence at a place is that of the listed edges there. -/
theorem edges_restrict (hh : g.restrict nodes edges = .ok h) (hi : i < nodes.length) :
    ∃ es, h.edges[i]? = some es ∧
      List.Forall₂ (fun e edge => g.edgeAt e = .ok edge) (listedAt nodes edges i) es := by
  obtain ⟨labels, kept, _, hkept, rfl⟩ := restrict_eq_ok_iff.mp hh
  refine ⟨_, by rw [getElem?_buckets, if_pos hi], ?_⟩
  rw [List.filter_map, List.map_map, List.forall₂_map_right_iff]
  exact (forall₂_listedAt hkept i).imp fun e k hk => (projectEdge_eq_ok_iff.mp hk).2.1

/-- The targets at a place are those of the listed edges there. -/
theorem targets_restrict (hh : g.restrict nodes edges = .ok h) (hi : i < nodes.length) :
    ∃ ts, h.targets[i]? = some ts ∧
      List.Forall₂ (g.Lands nodes) (listedAt nodes edges i) ts := by
  obtain ⟨labels, kept, _, hkept, rfl⟩ := restrict_eq_ok_iff.mp hh
  refine ⟨_, by rw [getElem?_buckets, if_pos hi], ?_⟩
  rw [List.filter_map, List.map_map, List.forall₂_map_right_iff]
  exact (forall₂_listedAt hkept i).imp fun e k hk => (projectEdge_eq_ok_iff.mp hk).2.2

theorem sizes_restrict (hh : g.restrict nodes edges = .ok h) :
    h.edges.size = nodes.length ∧ h.targets.size = nodes.length := by
  obtain ⟨labels, kept, _, _, rfl⟩ := restrict_eq_ok_iff.mp hh
  exact ⟨size_buckets _ _, size_buckets _ _⟩

/-- Evidence that stands at a place is that of the listed edges there. -/
theorem forall₂_edges_restrict {es : List Edge} (hh : g.restrict nodes edges = .ok h)
    (hes : h.edges[i]? = some es) :
    List.Forall₂ (fun e edge => g.edgeAt e = .ok edge) (listedAt nodes edges i) es := by
  have hi : i < nodes.length := (sizes_restrict hh).1 ▸ (Array.getElem?_eq_some_iff.mp hes).1
  obtain ⟨es', hes', hedges⟩ := edges_restrict hh hi
  rwa [Option.some.inj (hes.symm.trans hes')]

/-- Targets that stand at a place are those of the listed edges there. -/
theorem forall₂_targets_restrict {ts : List Nat} (hh : g.restrict nodes edges = .ok h)
    (hts : h.targets[i]? = some ts) :
    List.Forall₂ (g.Lands nodes) (listedAt nodes edges i) ts := by
  have hi : i < nodes.length := (sizes_restrict hh).2 ▸ (Array.getElem?_eq_some_iff.mp hts).1
  obtain ⟨ts', hts', htargets⟩ := targets_restrict hh hi
  rwa [Option.some.inj (hts.symm.trans hts')]

/-- A projection of a sound graph is sound. -/
theorem Sound.restrict (hg : g.Sound) (hh : g.restrict nodes edges = .ok h) : h.Sound := by
  have hcount := nodeCount_restrict hh
  obtain ⟨hedgesSize, htargetsSize⟩ := sizes_restrict hh
  constructor
  case edges_size => exact hedgesSize.trans hcount.symm
  case targets_size => exact htargetsSize.trans hcount.symm
  case degree =>
    intro i es ts hes hts
    have hedges := forall₂_edges_restrict hh hes
    exact hedges.length_eq.symm.trans (forall₂_targets_restrict hh hts).length_eq
  case inside =>
    intro i ts hts t ht
    obtain ⟨e, _, target, _, hlast⟩ :=
      Outcome.exists_left_of_forall₂ (forall₂_targets_restrict hh hts) ht
    rw [hcount]
    exact (List.getElem?_eq_some_iff.mp (getElem?_of_lastIndex? hlast)).1
  case evidence =>
    intro i es hes edge hedge
    obtain ⟨e, _, hread⟩ :=
      Outcome.exists_left_of_forall₂ (forall₂_edges_restrict hh hes) hedge
    obtain ⟨out, hout, hmem⟩ := edgeAt_eq_ok_iff.mp hread
    rw [table_restrict hh]
    exact hg.evidence e.node out hout edge (List.mem_of_getElem? hmem)

/-- A projection has an edge where a listed edge leads from the one node to the other. -/
theorem step_restrict_iff (hh : g.restrict nodes edges = .ok h) (hi : i < nodes.length) :
    h.digraph.Step i j ↔
      ∃ e ∈ edges, lastIndex? e.node nodes = some i ∧ g.Lands nodes e j := by
  have hlisted : ∀ e, e ∈ listedAt nodes edges i ↔
      e ∈ edges ∧ lastIndex? e.node nodes = some i := by
    simp [listedAt]
  -- the out-list of a place and the listed edges there match one by one
  obtain ⟨ts, hts, htargets⟩ := targets_restrict hh hi
  have hstep : h.digraph.Step i j ↔ j ∈ ts := by
    simp [Digraph.Step, Digraph.targets, digraph, Array.getD_eq_getD_getElem?, hts]
  rw [hstep]
  constructor
  · intro hj
    obtain ⟨e, he, hlands⟩ := Outcome.exists_left_of_forall₂ htargets hj
    exact ⟨e, ((hlisted e).mp he).1, ((hlisted e).mp he).2, hlands⟩
  · rintro ⟨e, he, hsource, target, htarget, hj⟩
    obtain ⟨j', hj', target', htarget', hlast⟩ :=
      Outcome.exists_right_of_forall₂ htargets ((hlisted e).mpr ⟨he, hsource⟩)
    obtain rfl := Except.ok.inj (htarget.symm.trans htarget')
    obtain rfl := Option.some.inj (hj.symm.trans hlast)
    exact hj'

/-! ### The projection onto everything -/

theorem lastIndex?_range {n v : Nat} (hv : v < n) : lastIndex? v (List.range n) = some v := by
  rw [lastIndex?_eq_some_iff_of_nodup List.nodup_range]
  simp [hv]

theorem Sound.lands_range_iff (hg : g.Sound) :
    g.Lands (List.range g.nodeCount) e i ↔ g.targetAt e = .ok i := by
  constructor
  · rintro ⟨target, htarget, hlast⟩
    rw [lastIndex?_range (hg.target_lt htarget)] at hlast
    exact Option.some.inj hlast ▸ htarget
  · intro htarget
    exact ⟨i, htarget, lastIndex?_range (hg.target_lt htarget)⟩

/-- The edges of a graph that are listed at a node are its out-edges. -/
theorem Sound.listedAt_edgeIds (hg : g.Sound) (hi : i < g.nodeCount) :
    listedAt (List.range g.nodeCount) g.edgeIds i = g.digraph.edgesFrom i := by
  have hsource : ∀ v < g.nodeCount, ∀ e ∈ g.digraph.edgesFrom v,
      lastIndex? e.node (List.range g.nodeCount) = some v := by
    intro v hv e he
    rw [(Digraph.mem_edgesFrom.mp he).1, lastIndex?_range hv]
  rw [listedAt, edgeIds_eq_flatMap, hg.targets_size, List.filter_flatMap,
    flatMap_eq_of_nodup List.nodup_range (List.mem_range.mpr hi)]
  · exact List.filter_eq_self.mpr fun e he => decide_eq_true (hsource i hi e he)
  · intro v hv hne
    refine List.filter_eq_nil_iff.mpr fun e he => ?_
    simpa [hsource v (List.mem_range.mp hv) e he] using hne

/-- Arrays of lists are equal if the lists at a place are determined by one and the same list. -/
theorem array_eq_of_forall₂ {α β : Type} {r : α → β → Prop} (hr : Relator.RightUnique r)
    (source : Nat → List α) {xs ys : Array (List β)} (hsize : xs.size = ys.size)
    (hxs : ∀ (i : Nat) x, xs[i]? = some x → List.Forall₂ r (source i) x)
    (hys : ∀ (i : Nat) y, ys[i]? = some y → List.Forall₂ r (source i) y) : xs = ys := by
  refine Array.ext hsize fun i hi hi' => ?_
  exact List.right_unique_forall₂' hr (hxs i _ (Array.getElem?_eq_getElem hi))
    (hys i _ (Array.getElem?_eq_getElem hi'))

/-- The projection of a sound graph onto all of its nodes and edges is the graph. -/
theorem Sound.restrict_all (hg : g.Sound) :
    g.restrict (List.range g.nodeCount) g.edgeIds = .ok g := by
  obtain ⟨h, hh⟩ : ∃ h, g.restrict (List.range g.nodeCount) g.edgeIds = .ok h := by
    refine hg.exists_restrict (fun v hv => List.mem_range.mp hv) fun e he => ?_
    obtain ⟨t, ht⟩ := mem_edgeIds.mp he
    exact ⟨List.mem_range.mpr (hg.node_lt ht), t, List.mem_range.mpr (hg.target_lt ht), ht⟩
  obtain ⟨hedgesSize, htargetsSize⟩ := sizes_restrict hh
  rw [List.length_range] at hedgesSize htargetsSize
  have hlabels : h.labels = g.labels := by
    obtain ⟨labels, kept, hlabels, _, rfl⟩ := restrict_eq_ok_iff.mp hh
    have hall : List.Forall₂ (fun v label => g.labels[v]? = some label) (List.range g.nodeCount)
        g.labels.toList := by
      have hlength : g.nodeCount = g.labels.toList.length := by simp [nodeCount]
      rw [hlength]
      exact forall₂_range (by simp)
    rw [List.right_unique_forall₂' (fun _ _ _ hb hc => Option.some.inj (hb.symm.trans hc))
      hlabels hall, Array.toArray_toList]
  have hedges : h.edges = g.edges := by
    refine array_eq_of_forall₂ (Outcome.rightUnique_ok g.edgeAt) g.digraph.edgesFrom
      (hedgesSize.trans hg.edges_size.symm) (fun i es hes => ?_) fun i es => hg.forall₂_edgeAt
    have hi : i < g.nodeCount := hedgesSize ▸ (Array.getElem?_eq_some_iff.mp hes).1
    rw [← hg.listedAt_edgeIds hi]
    exact forall₂_edges_restrict hh hes
  have htargets : h.targets = g.targets := by
    refine array_eq_of_forall₂ (Outcome.rightUnique_ok g.targetAt) g.digraph.edgesFrom
      (htargetsSize.trans hg.targets_size.symm) (fun i ts hts => ?_) fun i ts hts => ?_
    · have hi : i < g.nodeCount := htargetsSize ▸ (Array.getElem?_eq_some_iff.mp hts).1
      rw [← hg.listedAt_edgeIds hi]
      exact (forall₂_targets_restrict hh hts).imp fun e t => hg.lands_range_iff.mp
    · simpa [digraph, Digraph.targets, Array.getD_eq_getD_getElem?, hts] using forall₂_targetAt g i
  rw [hh]
  change Except.ok (Graph.mk h.labels h.edges h.targets h.table) = _
  rw [hlabels, hedges, htargets, table_restrict hh]

end LockOrder.Graph
