import LockOrder.Proofs.Report.Acquisitions

/-!
# Drawings in two grains

The calls behind an edge are drawn line by line or function by function. A frame has a node in both
drawings, and frames that share a node of the first share one of the second. So the second drawing
is the first one with nodes joined: it has no other nodes, its arrows are the images of the arrows
of the first, and the counts of arrows that become one are added up.

## Main definitions

* `CallGraph.images` — the nodes that the nodes of a finer drawing become
* `CallGraph.placed` — links between frames as links between nodes

## Main results

* `CallGraph.getElem?_images` — the node of a frame becomes the node of the frame
* `CallGraph.mem_images` — every node of the coarser drawing is an image
* `CallGraph.mem_placed_iff` — links of the coarser drawing are images
* `CallGraph.weight_eq_total` — counts of joined acquisitions are added up
* `Report.edgeDot_function_joins_line` — the two drawings of an edge
-/

namespace LockOrder

namespace CallGraph

variable {grain : Grain} {pairs : List StackPair} {pos : Pos} {f f' : Nat}

/-! ### Nodes -/

/-- For each node of the drawing by line, the node of the coarser drawing that has its frame. -/
def images (grain : Grain) (pairs : List StackPair) : List Nat :=
  (ofPairs .line pairs).nodes.map (nodeOf grain (ofPairs grain pairs).nodes)

/-- The node of a source line becomes the node of the same frame in the coarser drawing. -/
theorem getElem?_images (grain : Grain) (hpos : pos ∈ drawn pairs) :
    (images grain pairs)[nodeOf .line (ofPairs .line pairs).nodes pos]? =
      some (nodeOf grain (ofPairs grain pairs).nodes pos) := by
  have hshows : (ofPairs .line pairs).Shows .line
      (nodeOf .line (ofPairs .line pairs).nodes pos) pos := (shows_iff_nodeOf hpos).mpr rfl
  obtain ⟨pos', hnode, hjoins⟩ := hshows
  -- a node of a source line has no other frame
  obtain rfl : pos' = pos := by
    cases hjoins
    rfl
  rw [images, List.getElem?_map, hnode, Option.map_some]

/-- The image of a node shows the frame of the node. -/
theorem forall₂_images (grain : Grain) (pairs : List StackPair) :
    List.Forall₂ (fun pos f => (ofPairs grain pairs).Shows grain f pos)
      (ofPairs .line pairs).nodes (images grain pairs) := by
  rw [images, List.forall₂_map_right_iff, List.forall₂_same]
  intro pos hpos
  exact (shows_iff_nodeOf ((isFirstSeen_nodes .line pairs).mem hpos)).mpr rfl

/-- Every node of the coarser drawing is an image. -/
theorem mem_images (hf : f < (ofPairs grain pairs).nodes.length) : f ∈ images grain pairs := by
  -- a node of the coarser drawing has a frame, and the frame has a node by line
  have hdrawn : (ofPairs grain pairs).nodes[f] ∈ drawn pairs :=
    (isFirstSeen_nodes grain pairs).mem (List.getElem_mem hf)
  have hnode : nodeOf grain (ofPairs grain pairs).nodes (ofPairs grain pairs).nodes[f] = f := by
    rw [← getElem?_keys_iff hdrawn, keys, List.getElem?_map, List.getElem?_eq_getElem hf,
      Option.map_some]
  rw [← hnode]
  exact List.mem_of_getElem? (getElem?_images grain hdrawn)

/-! ### Links -/

/-- Links between frames, as links between nodes. -/
def placed (grain : Grain) (pairs : List StackPair) (links : List (Pos × Pos)) : List (Nat × Nat) :=
  links.map fun link => (nodeOf grain (ofPairs grain pairs).nodes link.1,
    nodeOf grain (ofPairs grain pairs).nodes link.2)

/-- The links of the coarser drawing are the images of the links of the finer one. -/
theorem mem_placed_iff {links : List (Pos × Pos)}
    (hlinks : ∀ link ∈ links, link.1 ∈ drawn pairs ∧ link.2 ∈ drawn pairs) :
    (f, f') ∈ placed grain pairs links ↔ ∃ a a', (a, a') ∈ placed .line pairs links ∧
      (images grain pairs)[a]? = some f ∧ (images grain pairs)[a']? = some f' := by
  constructor
  · intro h
    obtain ⟨link, hlink, hnodes⟩ := List.mem_map.mp h
    obtain ⟨rfl, rfl⟩ := Prod.mk.inj hnodes
    obtain ⟨hfirst, hsecond⟩ := hlinks link hlink
    exact ⟨_, _, List.mem_map_of_mem hlink, getElem?_images grain hfirst,
      getElem?_images grain hsecond⟩
  · rintro ⟨a, a', h, hf, hf'⟩
    obtain ⟨link, hlink, hnodes⟩ := List.mem_map.mp h
    obtain ⟨rfl, rfl⟩ := Prod.mk.inj hnodes
    obtain ⟨hfirst, hsecond⟩ := hlinks link hlink
    rw [getElem?_images grain hfirst] at hf
    rw [getElem?_images grain hsecond] at hf'
    exact List.mem_map.mpr ⟨link, hlink, Prod.ext (Option.some.inj hf) (Option.some.inj hf')⟩

/-- The ends of a call are drawn. -/
theorem mem_drawn_of_mem_callsOf {link : Pos × Pos}
    (h : link ∈ (pairs.flatMap fun p => [p.first, p.second]).flatMap callsOf) :
    link.1 ∈ drawn pairs ∧ link.2 ∈ drawn pairs := by
  obtain ⟨s, hs, hcall⟩ := List.mem_flatMap.mp h
  obtain ⟨i, hcaller, hcallee⟩ := mem_callsOf.mp hcall
  exact ⟨List.mem_flatMap.mpr ⟨s, hs, List.mem_of_getElem? hcaller⟩,
    List.mem_flatMap.mpr ⟨s, hs, List.mem_of_getElem? hcallee⟩⟩

theorem mem_calls_iff_mem_placed :
    (f, f') ∈ (ofPairs grain pairs).calls ↔ (f, f') ∈ placed grain pairs
      ((pairs.flatMap fun p => [p.first, p.second]).flatMap callsOf) :=
  mem_firstSeen_id

/-- The ends of an acquisition are drawn. -/
theorem mem_drawn_of_mem_innermostOf {link : Pos × Pos} (h : link ∈ pairs.filterMap innermostOf) :
    link.1 ∈ drawn pairs ∧ link.2 ∈ drawn pairs := by
  obtain ⟨p, hp, hends⟩ := List.mem_filterMap.mp h
  exact mem_drawn_of_innermostOf hp hends

theorem mem_acquisitions_iff_mem_placed :
    (f, f') ∈ (ofPairs grain pairs).acquisitions.map Prod.fst ↔
      (f, f') ∈ placed grain pairs (pairs.filterMap innermostOf) := by
  rw [acquisitions_eq_totals, mem_map_fst_totals, counts_eq_filterMap, placed, List.map_filterMap,
    List.map_filterMap]
  simp only [Option.map_map]
  rfl

/-! ### Counts -/

/-- The counts under two nodes of the coarser drawing are those under the nodes that become them. -/
theorem counts_of_images (grain : Grain) (pairs : List StackPair) (f f' : Nat) :
    ((counts grain pairs).filter fun entry => entry.1 = (f, f')).map Prod.snd =
      ((counts .line pairs).filter fun entry => (images grain pairs)[entry.1.1]? = some f ∧
        (images grain pairs)[entry.1.2]? = some f').map Prod.snd := by
  rw [counts_eq_filterMap, counts_eq_filterMap, List.filter_filterMap, List.filter_filterMap,
    List.map_filterMap, List.map_filterMap]
  apply List.filterMap_congr
  intro p hp
  cases hends : innermostOf p with
  | none => rfl
  | some ends =>
    -- the count of a pair of stacks stands under nodes that become the nodes of the same frames
    obtain ⟨hfirst, hsecond⟩ := mem_drawn_of_innermostOf hp hends
    simp [Option.filter, getElem?_images grain hfirst, getElem?_images grain hsecond]

/-- An acquisition of the coarser drawing has the counts of all acquisitions that become it. -/
theorem weight_eq_total {entry : (Nat × Nat) × Nat}
    (h : entry ∈ (ofPairs grain pairs).acquisitions) :
    entry.2 = total (((ofPairs .line pairs).acquisitions.filter fun red =>
      (images grain pairs)[red.1.1]? = some entry.1.1 ∧
        (images grain pairs)[red.1.2]? = some entry.1.2).map Prod.snd) := by
  rw [acquisitions_eq_totals] at h ⊢
  rw [eq_total_of_mem_totals h, counts_of_images grain pairs entry.1.1 entry.1.2]
  -- counts may be added up by line first, since lines that are told apart are joined as a whole
  exact (total_filter_totals (fun ends => (images grain pairs)[ends.1]? = some entry.1.1 ∧
    (images grain pairs)[ends.2]? = some entry.1.2) _).symm

end CallGraph

namespace Report

/-- The labels of the red arrows between some nodes are the counts of the acquisitions there. -/
theorem filter_redArrows (settings : Settings) (g : CallGraph) (keep : Nat × Nat → Bool) :
    ((redArrows settings g).filter fun red => keep red.ends).map RedArrow.label =
      (g.acquisitions.filter fun entry => keep entry.1).map Prod.snd := by
  rw [redArrows, List.filter_map, List.map_map]
  rfl

/-- **The drawing by function is the drawing by line with nodes joined.** For each edge of a graph
that passes the check and was not seen too often to be counted, and under any settings, the two
drawings of the calls behind the edge are made from the same trimmed stacks. The drawing by line has
a node for each source line or frame that is not resolved; it becomes the node of the other drawing
with the function of the line, or with the same frame. Every node by function comes about in this
way. A call is drawn from one function to another exactly if one is drawn from a line that becomes
the one to a line that becomes the other; and so is a red arrow, once, and its label is the sum of
the labels of all red arrows between such lines. -/
theorem edgeDot_function_joins_line (g : Graph) (hg : g.check = .ok ()) (e : EdgeId) (edge : Edge)
    (he : g.edgeAt e = .ok edge) (hcount : edge.totalCount < wordBound) (settings : Settings) :
    ∃ (pairs : List StackPair) (lineLabels functionLabels : List String),
      let fine := CallGraph.ofPairs .line pairs
      let coarse := CallGraph.ofPairs .function pairs
      let fineReds := redArrows settings fine
      let coarseReds := redArrows settings coarse
      let image := CallGraph.images .function pairs
      edge.pairs.mapM (trimPair settings g.table) = .ok pairs ∧
      ((edgeDot settings g.table .line edge).run none).2 =
        .ok (linesText (callGraphLines lineLabels fine.calls fineReds)) ∧
      ((edgeDot settings g.table .function edge).run none).2 =
        .ok (linesText (callGraphLines functionLabels coarse.calls coarseReds)) ∧
      IsFirstSeen Grain.line.key (CallGraph.drawn pairs) fine.nodes ∧
      IsFirstSeen Grain.function.key (CallGraph.drawn pairs) coarse.nodes ∧
      List.Forall₂ (Grain.line.Labels g.table) fine.nodes lineLabels ∧
      List.Forall₂ (Grain.function.Labels g.table) coarse.nodes functionLabels ∧
      List.Forall₂ (fun pos f => coarse.Shows .function f pos) fine.nodes image ∧
      (∀ f < coarse.nodes.length, f ∈ image) ∧
      (∀ f f', (f, f') ∈ coarse.calls ↔
        ∃ a a', (a, a') ∈ fine.calls ∧ image[a]? = some f ∧ image[a']? = some f') ∧
      (coarseReds.map RedArrow.ends).Nodup ∧
      (∀ f f', (f, f') ∈ coarseReds.map RedArrow.ends ↔
        ∃ a a', (a, a') ∈ fineReds.map RedArrow.ends ∧ image[a]? = some f ∧
          image[a']? = some f') ∧
      (∀ red ∈ coarseReds,
        red.label = total ((fineReds.filter fun part =>
          image[part.ends.1]? = some red.ends.1 ∧
            image[part.ends.2]? = some red.ends.2).map RedArrow.label)) ∧
      ∀ red ∈ fineReds ++ coarseReds, red.label < wordBound := by
  have hsound := (Graph.check_eq_ok_iff.mp hg).sound_of_edgeAt he
  obtain ⟨pairs, lineLabels, hpairs, htrims, _, hlineLabels, hline⟩ :=
    exists_callGraph settings .line hsound
  obtain ⟨pairs', functionLabels, hpairs', _, _, hfunctionLabels, hfunction⟩ :=
    exists_callGraph settings .function hsound
  -- trimming does not depend on the grain
  obtain rfl := Except.ok.inj (hpairs.symm.trans hpairs')
  refine ⟨pairs, lineLabels, functionLabels, hpairs, hline, hfunction,
    CallGraph.isFirstSeen_nodes _ _, CallGraph.isFirstSeen_nodes _ _, hlineLabels,
    hfunctionLabels, CallGraph.forall₂_images _ _, fun f => CallGraph.mem_images,
    fun f f' => ?calls, ?once, fun f f' => ?ends, fun red hred => ?label, ?word⟩
  case calls =>
    simp only [CallGraph.mem_calls_iff_mem_placed]
    exact CallGraph.mem_placed_iff fun link => CallGraph.mem_drawn_of_mem_callsOf
  case once =>
    rw [map_ends_redArrows, CallGraph.acquisitions_eq_totals, CallGraph.map_fst_totals]
    exact nodup_firstSeen_id _
  case ends =>
    simp only [map_ends_redArrows, CallGraph.mem_acquisitions_iff_mem_placed]
    exact CallGraph.mem_placed_iff fun link => CallGraph.mem_drawn_of_mem_innermostOf
  case label =>
    obtain ⟨entry, hentry, rfl⟩ := List.mem_map.mp hred
    refine (CallGraph.weight_eq_total hentry).trans (congrArg total ?_)
    exact (filter_redArrows settings _ fun ends =>
      (CallGraph.images .function pairs)[ends.1]? = some entry.1.1 ∧
        (CallGraph.images .function pairs)[ends.2]? = some entry.1.2).symm
  case word =>
    have hlt : total (pairs.map StackPair.count) < wordBound := by
      rw [map_count_of_trims htrims]
      exact hcount
    intro red hred
    rcases List.mem_append.mp hred with hred | hred
    · exact Nat.lt_of_le_of_lt (label_le_of_mem_redArrows hred) hlt
    · exact Nat.lt_of_le_of_lt (label_le_of_mem_redArrows hred) hlt

/-- Two calls and two acquisitions between lines of the same functions become one call and one
acquisition with both counts; frames that are not resolved stay apart. -/
theorem edgeDot_function_joins_line_merged :
    let edge : Edge := ⟨[⟨⟨[.resolved 0 0 7, .resolved 0 1 3]⟩, ⟨[.resolved 0 1 5]⟩, 3⟩,
      ⟨⟨[.resolved 0 0 9, .resolved 0 1 4]⟩, ⟨[.resolved 0 1 6]⟩, 2⟩,
      ⟨⟨[.unresolved "?"]⟩, ⟨[]⟩, 1⟩]⟩
    let g : Graph := ⟨#["a", "b"], #[[edge], []], #[[1], []], ⟨⟨#["x/a.c"]⟩, ⟨#["lock", "main"]⟩⟩⟩
    g.check = .ok () ∧ g.edgeAt ⟨0, 0⟩ = .ok edge ∧ edge.totalCount < wordBound ∧
      ∃ (pairs : List StackPair) (lines : List String),
        edge.pairs.mapM (trimPair {} g.table) = .ok pairs ∧
        ((edgeDot {} g.table .function edge).run none).2 = .ok (linesText lines) ∧
        (CallGraph.ofPairs .line pairs).calls = [(1, 0), (4, 3)] ∧
        "  n1 -> n0;" ∈ lines ∧
        (CallGraph.ofPairs .line pairs).acquisitions = [((0, 2), 3), ((3, 5), 2), ((6, 7), 1)] ∧
        ∃ width, "  n0 -> n1 [color=red,penwidth=" ++ width ++ ",label=5];" ∈ lines := by
  intro edge g
  have hcount : edge.totalCount < wordBound := by decide
  obtain ⟨pairs, _, labels, hpairs, _, htext, _, _, _, _, _, _, hcalls, _, hends, hlabel, _⟩ :=
    edgeDot_function_joins_line g rfl ⟨0, 0⟩ edge rfl hcount {}
  obtain rfl : [⟨⟨[.resolved 0 0 7, .resolved 0 1 3]⟩, ⟨[.resolved 0 1 5]⟩, 3⟩,
      ⟨⟨[.resolved 0 0 9, .resolved 0 1 4]⟩, ⟨[.resolved 0 1 6]⟩, 2⟩,
      ⟨⟨[.unresolved "?"]⟩, ⟨[.unresolved "missing stack"]⟩, 1⟩] = pairs := Except.ok.inj hpairs
  -- the call and the red arrow are images of the first ones by line
  have hcall := (hcalls 1 0).mpr ⟨1, 0, by decide, by decide, by decide⟩
  have hred := (hends 0 1).mpr ⟨0, 2, by decide, by decide, by decide⟩
  obtain ⟨red, hred, hnodes⟩ := List.mem_map.mp hred
  have hfive : red.label = 5 := by
    rw [hlabel red hred, hnodes]
    decide
  have hdigit : ∀ d < 10, Text.decimal d = String.ofList [Text.digitChar d] := by
    intro d hd
    rw [Text.decimal, Text.digits, if_pos hd]
  refine ⟨rfl, rfl, hcount, _, _, hpairs, htext, by decide, ?call, by decide,
    Number.plainText red.width, ?red⟩
  case call =>
    have hline : "  n" ++ Text.decimal 1 ++ " -> n" ++ Text.decimal 0 ++ ";" = "  n1 -> n0;" := by
      rw [hdigit 1 (by decide), hdigit 0 (by decide)]
      rfl
    exact hline ▸ mem_callGraphLines_of_call hcall
  case red =>
    have hline : red.line = "  n0 -> n1 [color=red,penwidth=" ++ Number.plainText red.width ++
        ",label=5];" := by
      rw [RedArrow.line, hnodes, hfive, hdigit 0 (by decide), hdigit 1 (by decide),
        hdigit 5 (by decide), String.append_assoc, String.append_assoc]
      rfl
    exact hline ▸ mem_callGraphLines_of_red hred

end Report

end LockOrder
