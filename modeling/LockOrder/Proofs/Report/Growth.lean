import LockOrder.Graph.Edit
import LockOrder.Proofs.Report.CallGraph
import LockOrder.Proofs.Stack.Growth
import LockOrder.Report.Text

/-!
# Reports over a growing table

A graph shares its stack table with whoever goes on interning names, such as the recorder that made
it. Every frame of a sound graph points inside the table, and what is inside never changes, so the
reports and drawings of the graph stay what they are.

## Main results

* `Report.block_growsTo`, `Report.textReport_growsTo` — the text report
* `Report.edgeDot_growsTo` — the drawings of the calls behind an edge
* `Report.unchanged_by_interning` — nothing that is shown of a graph changes
-/

namespace LockOrder

theorem Grain.label_growsTo {t t' : StackTable} {pos : Pos} (grain : Grain) (h : t.GrowsTo t')
    (hpos : t.Holds pos) : grain.label t' pos = grain.label t pos := by
  cases pos with
  | unresolved text => cases grain <;> rfl
  | resolved file func row =>
    cases grain with
    | function => exact h.funcs.get_eq hpos.2
    | line => rw [Grain.label, Grain.label, h.funcs.get_eq hpos.2, h.files.get_eq hpos.1]

namespace Report

variable {t t' table : StackTable} {g : Graph}

/-! ### The text report -/

theorem pairSteps_growsTo (settings : Settings) (source target : String) {pair : StackPair}
    (h : t.GrowsTo t') (hpair : pair.Sound t) :
    pairSteps settings t' source target pair = pairSteps settings t source target pair := by
  rw [pairSteps, pairSteps, stackStep, stackStep, stackStep, stackStep,
    h.stackText_eq hpair.first, h.stackText_eq hpair.second]

/-- The lines of an edge stay the same. -/
theorem block_growsTo (settings : Settings) (hg : g.Sound) (h : g.table.GrowsTo table)
    (e : EdgeId) : block settings { g with table := table } e = block settings g e := by
  have hparts : edgeParts settings { g with table := table } e = edgeParts settings g e := rfl
  rw [block, block, hparts]
  cases hread : edgeParts settings g e with
  | error fault => rfl
  | ok parts =>
    obtain ⟨source, target, edge⟩ := parts
    -- the evidence that was read is that of an edge of the graph, so its frames are in the table
    have hedge : g.edgeAt e = .ok edge := by
      obtain ⟨_, _, hread⟩ := Outcome.bind_eq_ok_iff.mp hread
      obtain ⟨_, _, hread⟩ := Outcome.bind_eq_ok_iff.mp hread
      obtain ⟨_, _, hread⟩ := Outcome.bind_eq_ok_iff.mp hread
      obtain ⟨edge', hedge, heq⟩ := Outcome.bind_eq_ok_iff.mp hread
      cases heq
      exact hedge
    obtain ⟨edges, hedges, hmem⟩ := Graph.edgeAt_eq_ok_iff.mp hedge
    have hsound := hg.evidence e.node edges hedges edge (List.mem_of_getElem? hmem)
    have hpairs : (edge.pairs.take settings.maxStackPairs).flatMap
          (pairSteps settings table source target) =
        (edge.pairs.take settings.maxStackPairs).flatMap
          (pairSteps settings g.table source target) :=
      List.flatMap_congr fun pair hpair =>
        pairSteps_growsTo settings source target h (hsound pair (List.mem_of_mem_take hpair))
    change edgeSteps settings table source target edge =
      edgeSteps settings g.table source target edge
    rw [edgeSteps, edgeSteps, hpairs]

/-- The text report stays the same. -/
theorem textReport_growsTo (settings : Settings) (hg : g.Sound) (h : g.table.GrowsTo table) :
    textReport settings { g with table := table } = textReport settings g := by
  have hblock : block settings { g with table := table } = block settings g := by
    funext e
    exact block_growsTo settings hg h e
  have hwalk : walkSteps settings { g with table := table } = walkSteps settings g := by
    funext walk
    rw [walkSteps, walkSteps, hblock]
  rw [textReport, hwalk]
  rfl

/-! ### Drawings -/

theorem trimStack_growsTo (settings : Settings) {s : Stack} (h : t.GrowsTo t')
    (hs : ∀ pos ∈ s.frames, t.Holds pos) : trimStack settings t' s = trimStack settings t s := by
  rw [trimStack, trimStack]
  cases hlast : s.frames.getLast? with
  | none => rfl
  | some outer => simp only [h.funcName?_eq (hs outer (List.mem_of_getLast? hlast))]

theorem trimPair_growsTo (settings : Settings) {p : StackPair} (h : t.GrowsTo t')
    (hp : p.Sound t) : trimPair settings t' p = trimPair settings t p := by
  rw [trimPair, trimPair, trimStack_growsTo settings h hp.first,
    trimStack_growsTo settings h hp.second]

/-- The drawing of a call graph stays the same. -/
theorem callGraphDot_growsTo (settings : Settings) (grain : Grain) {calls : CallGraph}
    (h : t.GrowsTo t') (hnodes : ∀ pos ∈ calls.nodes, t.Holds pos) :
    callGraphDot settings t' grain calls = callGraphDot settings t grain calls := by
  -- only the lines of the frames look at the table
  rw [callGraphDot, callGraphDot]
  congr 4
  apply List.map_congr_left
  rintro ⟨pos, node⟩ hmem
  have hpos := hnodes pos (List.mem_of_getElem? (List.mem_zipIdx_iff_getElem?.mp hmem))
  simp only [frameLine, grain.label_growsTo h hpos]

/-- The drawing of the calls behind an edge stays the same. -/
theorem edgeDot_growsTo (settings : Settings) (grain : Grain) {edge : Edge} (h : t.GrowsTo t')
    (hedge : ∀ p ∈ edge.pairs, p.Sound t) :
    edgeDot settings t' grain edge = edgeDot settings t grain edge := by
  have htrim : edge.pairs.mapM (trimPair settings t') = edge.pairs.mapM (trimPair settings t) :=
    Outcome.mapM_congr fun p hp => trimPair_growsTo settings h (hedge p hp)
  obtain ⟨pairs, hpairs, _, hall⟩ := exists_trimmed settings hedge
  rw [edgeDot, edgeDot, htrim, hpairs]
  exact callGraphDot_growsTo settings grain h
    (holds_of_mem_nodes grain fun p hp => (hall p hp).2)

/-! ### All that is shown -/

/-- **Interning changes nothing that is shown of a graph.** After any calls that intern names into
the table of a graph that passes the check, the graph still passes it, has the same cycles, and is
reported and drawn by the same steps, whatever the settings: its text report, its drawing, and the
drawing of each of its edges in either grain. A recorder that goes on after it has given the graph
away interns names and does nothing else to the table. -/
theorem unchanged_by_interning (g : Graph) (hg : g.check = .ok ()) (settings : Settings) :
    (∀ interned : List Interning,
      let g' : Graph := { g with table := interned.foldl StackTable.after g.table }
      g'.check = .ok () ∧ g'.cycles = g.cycles ∧
        textReport settings g' = textReport settings g ∧
        graphDot settings g' = graphDot settings g ∧
        ∀ e ∈ g.edgeIds, ∃ edge, g.edgeAt e = .ok edge ∧ g'.edgeAt e = .ok edge ∧
          ∀ grain, edgeDot settings g'.table grain edge = edgeDot settings g.table grain edge) ∧
    ∀ r : Recorder, r.finish = g → ∀ calls, ∃ interned : List Interning,
      (r.run calls).table = interned.foldl StackTable.after g.table := by
  rw [Graph.check_eq_ok_iff] at hg
  constructor
  · intro interned g'
    have hgrows := g.table.growsTo_after interned
    refine ⟨Graph.check_eq_ok_iff.mpr (hg.growsTo hgrows), rfl,
      textReport_growsTo settings hg hgrows, rfl, fun e he => ?_⟩
    obtain ⟨v, hv⟩ := Graph.mem_edgeIds.mp he
    obtain ⟨edge, hedge, hsound⟩ := hg.exists_edgeAt hv
    exact ⟨edge, hedge, hedge, fun grain => edgeDot_growsTo settings grain hgrows hsound⟩
  · rintro r rfl calls
    exact r.exists_after_run calls

/-- Two locks in a cycle. The table holds a file name twice, and then gets a new name and both old
ones again. -/
theorem unchanged_by_interning_twice :
    let pair : StackPair := ⟨⟨[.resolved 1 0 7]⟩, ⟨[.unresolved "?"]⟩, 2⟩
    let g : Graph := ⟨#["a", "b"], #[[⟨[pair]⟩], [⟨[pair]⟩]], #[[1], [0]],
      ⟨⟨#["x/a.c", "x/a.c"]⟩, ⟨#["main"]⟩⟩⟩
    let g' : Graph := ⟨#["a", "b"], #[[⟨[pair]⟩], [⟨[pair]⟩]], #[[1], [0]],
      ⟨⟨#["x/a.c", "x/a.c", "y/b.c"]⟩, ⟨#["main"]⟩⟩⟩
    g.check = .ok () ∧ g'.check = .ok () ∧ textReport {} g' = textReport {} g := by
  intro pair g g'
  have hall := (unchanged_by_interning g rfl {}).1
    [.line ⟨"main", "x/a.c", 1⟩, .lines [⟨"main", "y/b.c", 2⟩]]
  exact ⟨rfl, hall.1, hall.2.2.1⟩

end Report

end LockOrder
