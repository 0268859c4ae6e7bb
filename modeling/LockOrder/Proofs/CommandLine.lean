import LockOrder.CommandLine.Run
import LockOrder.Proofs.Digraph.Exclusion
import LockOrder.Proofs.Graph.CycleGraph
import LockOrder.Proofs.Report.CallGraph
import LockOrder.Proofs.Report.Drawing

/-!
# Commands break no contract

A graph that was loaded is sound, and on a sound graph every analysis and every report finishes:
what they look up is there. So whatever a dump holds, a command writes its text, refuses what it was
given, or says that the graph has no such edge.

## Main definitions

* `Components.Serves` — what the analyses look up by node or component is there
* `Graph.Usable` — every analysis and every report of a graph finishes

## Main results

* `Graph.Sound.usable` — sound graphs are usable
* `CommandLine.Command.answered_apply` — every command on a sound graph is answered
* `CommandLine.no_dump_breaks` — no dump makes the tool break a contract
-/

namespace LockOrder

/-! ### Usable graphs -/

/-- What the analyses of a graph look up by node or by component is there. -/
structure Components.Serves (c : Components) (g : Digraph) : Prop where
  /-- Every node has a list of successors, and these are nodes. -/
  closed : g.Closed
  /-- Every node has a component. -/
  covers : c.componentOf.size = g.order
  /-- Every component of a node has a list of members. -/
  listed : ∀ (v : Nat) k, c.componentOf[v]? = some k → k < c.members.size
  /-- Every component has a first member. -/
  inhabited : ∀ m ∈ c.members, m ≠ []
  /-- Members are nodes. -/
  nodes : ∀ m ∈ c.members, ∀ v ∈ m, v < g.order

theorem Digraph.Closed.exists_serves {g : Digraph} (hg : g.Closed) :
    ∃ c, g.components = .ok c ∧ c.Serves g := by
  have hcoherent := Digraph.componentsOf_coherent hg
  refine ⟨g.componentsOf, Digraph.components_eq_ok hg, hg, Digraph.size_componentOf hg,
    fun v k hv => (hcoherent.used k).mpr ⟨v, hv⟩, fun m => hcoherent.ne_nil, fun m hm v hv => ?_⟩
  obtain ⟨k, hk⟩ := Array.mem_iff_getElem?.mp hm
  exact Digraph.lt_order_of_componentOf hg ((hcoherent.mem_iff k m hk v).mp hv)

open CommandLine (checkEdge)

/-- Every analysis and every report of a graph finishes. -/
structure Graph.Usable (g : Graph) : Prop where
  /-- The components can be found. -/
  components : ∃ c, g.digraph.components = .ok c ∧ c.Serves g.digraph
  /-- The cycles can be found, and told of. -/
  cycles : ∃ set event, g.cycles = .ok set ∧ g.digraph.survey = .ok (set, event)
  /-- Edges can be left out, and the cycles of what is left named by edges of the graph. -/
  exclusion : ∀ excluded, (∀ e ∈ excluded, checkEdge g e = .ok ()) →
    ∃ view c set event, g.digraph.exclude excluded = .ok view ∧
      view.graph.components = .ok c ∧ c.Serves view.graph ∧ view.survey = .ok (set, event) ∧
      ∀ e ∈ set.edges, checkEdge g e = .ok () ∧ e ∉ excluded
  /-- The graph can be projected onto its cycles, and the projection passes the check. -/
  cycleGraph : ∃ h, g.cycleGraph = .ok h ∧ h.check = .ok ()
  /-- The text report finishes. -/
  textReport : ∀ settings, (Report.textReport settings g).Finishes
  /-- The drawing of the graph finishes. -/
  graphDot : ∀ settings, (Report.graphDot settings g).Finishes
  /-- The drawing of the calls behind an edge finishes, with a place for all that is drawn. Unless
  the counts of the edge add up to too much, the weights are words. -/
  edgeDot : ∀ settings grain e, checkEdge g e = .ok () →
    ∃ edge pairs, g.edgeAt e = .ok edge ∧
      edge.pairs.mapM (Report.trimPair settings g.table) = .ok pairs ∧
      CallGraph.Places grain pairs ∧
      (edge.totalCount < wordBound →
        ∀ entry ∈ (CallGraph.ofPairs grain pairs).acquisitions, entry.2 < wordBound) ∧
      (Report.edgeDot settings g.table grain edge).Finishes
  /-- The graph can be dumped. -/
  dump : ∃ event, Dump.save none g = .ok (Dump.write g, event)

namespace CommandLine

variable {g : Graph} {e : EdgeId}

/-- Just the edges of a sound graph are accepted. -/
theorem checkEdge_eq_if (hg : g.Sound) :
    checkEdge g e =
      if e ∈ g.edgeIds then .ok () else .error (.noSuchEdge e g.nodeCount) := by
  rw [checkEdge]
  by_cases hnode : e.node < g.nodeCount
  · -- the targets of the node can be read, so that no fault comes between
    have hsize : e.node < g.targets.size := hg.targets_size.symm ▸ hnode
    have hout : g.out e.node = .ok g.targets[e.node] := arrayAt_of_lt hsize
    have hmem : e ∈ g.edgeIds ↔ e.edge < g.targets[e.node].length := by
      simp [Graph.mem_edgeIds, Graph.targetAt_eq_ok_iff_exists, hsize, ← Option.isSome_iff_exists]
    rw [if_pos hnode, hout]
    simp only [hmem]
    rfl
  · have hmem : e ∉ g.edgeIds := by
      intro he
      obtain ⟨v, hv⟩ := Graph.mem_edgeIds.mp he
      exact hnode (hg.node_lt hv)
    rw [if_neg hnode, if_neg hmem]

/-- The edges that a sound graph has are those that have a target. -/
theorem checkEdge_eq_ok_iff (hg : g.Sound) :
    checkEdge g e = .ok () ↔ ∃ v, g.targetAt e = .ok v := by
  rw [checkEdge_eq_if hg, ← Graph.mem_edgeIds]
  by_cases he : e ∈ g.edgeIds <;> simp [he]

end CommandLine

/-- Every analysis and every report of a sound graph finishes. -/
theorem Graph.Sound.usable {g : Graph} (hg : g.Sound) : g.Usable where
  components := hg.digraph_closed.exists_serves
  cycles := by
    obtain ⟨event, hsurvey⟩ := Digraph.survey_eq_ok hg.digraph_closed
    exact ⟨_, event, hg.cycles_eq_ok, hsurvey⟩
  exclusion excluded _ := by
    have hclosed := hg.digraph_closed
    have hleft : (g.digraph.without excluded).graph.Closed := Digraph.closed_without hclosed
    obtain ⟨c, hc, hserves⟩ := hleft.exists_serves
    obtain ⟨set, event, hsurvey, hedges⟩ := Digraph.exists_survey_without hclosed excluded
    refine ⟨g.digraph.without excluded, c, set, event, Digraph.exclude_eq_ok hclosed excluded, hc,
      hserves, hsurvey, fun e he => ⟨?_, (hedges e he).2⟩⟩
    obtain ⟨w, hw⟩ := (hedges e he).1
    exact (CommandLine.checkEdge_eq_ok_iff hg).mpr ⟨w, targetAt_eq_ok_iff.mpr hw⟩
  cycleGraph := by
    obtain ⟨h, hh⟩ := hg.exists_cycleGraph
    exact ⟨h, hh, check_eq_ok_iff.mpr (hg.restrict (hg.cycleGraph_eq ▸ hh))⟩
  textReport settings := by
    obtain ⟨texts, _, htext⟩ := Report.exists_text_textReport settings hg
    exact Script.finishes_of_text_eq_ok htext
  graphDot settings := by
    obtain ⟨_, ht, _⟩ := Report.exists_statements settings g
    exact Script.finishes_of_text_eq_ok ht
  edgeDot settings grain e he := by
    obtain ⟨v, hv⟩ := (CommandLine.checkEdge_eq_ok_iff hg).mp he
    obtain ⟨edge, hedge, hsound⟩ := hg.exists_edgeAt hv
    obtain ⟨pairs, t, hpairs, hplaces, hweights, ht⟩ := Report.exists_edgeDot settings grain hsound
    exact ⟨edge, pairs, hedge, hpairs, hplaces,
      fun hcount entry hentry => Nat.lt_of_le_of_lt (hweights entry hentry) hcount,
      Script.finishes_of_text_eq_ok ht⟩
  dump := ⟨_, rfl⟩

/-! ### Loading -/

theorem Error.kind_ofFlaw (flaw : Json.Flaw) : (ofFlaw flaw).kind = .decode := by
  unfold ofFlaw
  split <;> rfl

namespace Dump

/-- A graph that was loaded passed the check. -/
theorem check_of_load {source : Source} {g : Graph} {event : Event}
    (h : load source = .ok (g, event)) : g.check = .ok () := by
  obtain ⟨text, _, h⟩ := Outcome.bind_eq_ok_iff.mp h
  obtain ⟨g', _, h⟩ := Outcome.bind_eq_ok_iff.mp h
  obtain ⟨_, hcheck, h⟩ := Outcome.bind_eq_ok_iff.mp h
  cases h
  exact Outcome.mapError_eq_ok_iff.mp hcheck

/-- A dump that cannot be loaded, though it was read, is refused as malformed. -/
theorem kind_of_load {text : List UInt8} {cause : Error} (h : load (.ok text) = .error cause) :
    cause.kind = .decode := by
  rcases Outcome.bind_eq_error_iff.mp h with h | ⟨_, _, h⟩
  · exact absurd h nofun
  rcases Outcome.bind_eq_error_iff.mp h with h | ⟨g, _, h⟩
  · obtain ⟨flaw, _, rfl⟩ := Outcome.mapError_eq_error_iff.mp h
    exact Error.kind_ofFlaw flaw
  rcases Outcome.bind_eq_error_iff.mp h with h | ⟨_, _, h⟩
  · obtain ⟨flaw, _, rfl⟩ := Outcome.mapError_eq_error_iff.mp h
    rfl
  · exact absurd h nofun

end Dump

/-! ### Commands -/

namespace CommandLine

variable {g : Graph}

/-- A request is answered, or names an edge that the graph does not have. -/
def Answered {α : Type} (g : Graph) (result : Except Failure α) : Prop :=
  (∃ a, result = .ok a) ∨ ∃ e, result = .error (.noSuchEdge e g.nodeCount)

theorem answered_checkEdge (hg : g.Sound) (e : EdgeId) : Answered g (checkEdge g e) := by
  rw [checkEdge_eq_if hg]
  split
  · exact .inl ⟨(), rfl⟩
  · exact .inr ⟨e, rfl⟩

theorem Answered.bind {α β : Type} {x : Except Failure α} {f : α → Except Failure β}
    (hx : Answered g x) (hf : ∀ a, x = .ok a → Answered g (f a)) : Answered g (x >>= f) := by
  rcases hx with ⟨a, rfl⟩ | ⟨e, rfl⟩
  · exact hf a rfl
  · exact .inr ⟨e, rfl⟩

theorem answered_checkEdges (hg : g.Sound) (edges : List EdgeId) :
    Answered g (edges.forM (checkEdge g)) := by
  induction edges with
  | nil => exact .inl ⟨(), rfl⟩
  | cons e edges ih => exact (answered_checkEdge hg e).bind fun _ _ => ih

theorem answered_of_eq_ok {α : Type} {x : Except Fault α} {a : α} (h : x = .ok a) :
    Answered g (x.mapError Failure.broken) :=
  .inl ⟨a, Outcome.mapError_eq_ok_iff.mpr h⟩

/-- What a report shows of a sound graph, all of it or its cycles, is sound. -/
theorem exists_shown (hg : g.Sound) (all : Bool) :
    ∃ h, (if all then .ok g else g.cycleGraph) = .ok h ∧ h.Sound := by
  cases all with
  | true => exact ⟨g, rfl, hg⟩
  | false =>
    obtain ⟨h, hh⟩ := hg.exists_cycleGraph
    exact ⟨h, hh, hg.restrict (hg.cycleGraph_eq ▸ hh)⟩

/-- Every command on a sound graph is answered. -/
theorem Command.answered_apply (hg : g.Sound) (settings : Settings) (command : Command) :
    Answered g (command.apply g settings) := by
  cases command with
  | report dump all path =>
    obtain ⟨h, hshown, hh⟩ := exists_shown hg all
    obtain ⟨texts, _, htext⟩ := Report.exists_text_textReport settings hh
    rw [apply, hshown]
    exact answered_of_eq_ok htext
  | cycles dump excluded =>
    refine (answered_checkEdges hg excluded).bind fun _ _ => ?_
    obtain ⟨set, event, hsurvey, _⟩ := Digraph.exists_survey_without hg.digraph_closed excluded
    rw [Digraph.exclude_eq_ok hg.digraph_closed]
    exact (answered_of_eq_ok hsurvey).bind fun _ _ => .inl ⟨_, rfl⟩
  | edgeDot dump edge path =>
    refine (answered_checkEdge hg edge).bind fun _ hedge => ?_
    obtain ⟨v, hv⟩ := (checkEdge_eq_ok_iff hg).mp hedge
    obtain ⟨evidence, hevidence, hsound⟩ := hg.exists_edgeAt hv
    obtain ⟨_, t, _, _, _, htext⟩ := Report.exists_edgeDot settings .function hsound
    rw [hevidence]
    exact answered_of_eq_ok htext
  | graphDot dump cyclesOnly path =>
    obtain ⟨h, hshown, _⟩ := exists_shown hg !cyclesOnly
    obtain ⟨_, ht, _⟩ := Report.exists_statements settings h
    have hshown' : (if cyclesOnly then g.cycleGraph else .ok g) = .ok h := by
      cases cyclesOnly <;> exact hshown
    rw [apply, hshown']
    exact answered_of_eq_ok ht
  | stats dump => exact (answered_of_eq_ok hg.cycles_eq_ok).bind fun _ _ => .inl ⟨_, rfl⟩

/-- No command breaks a contract, whatever it reads. -/
theorem Command.run_ne_broken (around : Surroundings) (command : Command) (fault : Fault) :
    command.run around ≠ .error (.broken fault) := by
  intro h
  rcases Outcome.bind_eq_error_iff.mp h with h | ⟨settings, _, h⟩
  · obtain ⟨cause, _, hcause⟩ := Outcome.mapError_eq_error_iff.mp h
    cases hcause
  rcases Outcome.bind_eq_error_iff.mp h with h | ⟨g, hgraph, h⟩
  · obtain ⟨cause, _, hcause⟩ := Outcome.mapError_eq_error_iff.mp h
    cases hcause
  -- the graph came from a dump, so it passed the check
  obtain ⟨loaded, hload, hg⟩ := Outcome.bind_eq_ok_iff.mp (Outcome.mapError_eq_ok_iff.mp hgraph)
  obtain rfl := Except.ok.inj hg
  have hsound := Graph.check_eq_ok_iff.mp (Dump.check_of_load hload)
  rcases command.answered_apply hsound settings with ⟨t, ht⟩ | ⟨e, he⟩
  · rw [ht] at h
    cases h
  · rw [he] at h
    cases h

/-- **No dump makes the tool break a contract.** Any octets are refused as malformed or loaded as a
graph on which every analysis and every report finishes; every graph that passes the check is such a
graph, however it was made; and no command line, whatever files it names, ends in a broken
contract. -/
theorem no_dump_breaks :
    (∀ text : List UInt8,
      (∃ cause, Dump.load (.ok text) = .error cause ∧ cause.kind = .decode) ∨
        ∃ g event, Dump.load (.ok text) = .ok (g, event) ∧ g.Usable) ∧
    (∀ g : Graph, g.check = .ok () → g.Usable) ∧
    ∀ (around : Surroundings) (env : Option String) (args : List String),
      (runLine around env args).exitCode ≠ 101 := by
  have husable : ∀ g : Graph, g.check = .ok () → g.Usable := fun g hg =>
    (Graph.check_eq_ok_iff.mp hg).usable
  refine ⟨fun text => ?_, husable, fun around env args => ?_⟩
  · cases hload : Dump.load (.ok text) with
    | error cause => exact .inl ⟨cause, rfl, Dump.kind_of_load hload⟩
    | ok loaded => exact .inr ⟨loaded.1, loaded.2, rfl, husable _ (Dump.check_of_load hload)⟩
  · unfold runLine
    cases hparse : Command.parse env args with
    | error misuse => simp [Outcome.exitCode]
    | ok command =>
      cases hrun : command.run around with
      | ok output => simp [hrun, Outcome.exitCode]
      | error failure =>
        cases failure with
        | broken fault => exact absurd hrun (command.run_ne_broken around fault)
        | refused cause => simp [hrun, Outcome.exitCode]
        | noSuchEdge edge nodes => simp [hrun, Outcome.exitCode]

/-- The calls behind the only edge of a graph, seen as often as a word can count, once without
frames. -/
theorem no_dump_breaks_largest :
    let g : Graph := ⟨#["a", "b"],
      #[[⟨[⟨⟨[.resolved 0 0 7, .unresolved "?"]⟩, ⟨[]⟩, 0xFFFFFFFFFFFFFFFE⟩,
        ⟨⟨[]⟩, ⟨[]⟩, 1⟩]⟩], []],
      #[[1], []], ⟨⟨#["x/a.c"]⟩, ⟨#["main"]⟩⟩⟩
    g.check = .ok () ∧ checkEdge g ⟨0, 0⟩ = .ok () ∧ g.Usable ∧
      ∃ edge pairs, g.edgeAt ⟨0, 0⟩ = .ok edge ∧ edge.totalCount < wordBound ∧
        edge.pairs.mapM (Report.trimPair {} g.table) = .ok pairs ∧
        CallGraph.Places .line pairs ∧
        (∀ entry ∈ (CallGraph.ofPairs .line pairs).acquisitions, entry.2 < wordBound) ∧
        (Report.edgeDot {} g.table .line edge).Finishes := by
  intro g
  have husable : g.Usable := no_dump_breaks.2.1 g rfl
  obtain ⟨edge, pairs, hedge, hpairs, hplaces, hweights, hfinishes⟩ :=
    husable.edgeDot {} .line ⟨0, 0⟩ rfl
  have hcount : edge.totalCount < wordBound := by
    obtain rfl := Except.ok.inj hedge
    decide
  exact ⟨rfl, rfl, husable, edge, pairs, hedge, hcount, hpairs, hplaces, hweights hcount,
    hfinishes⟩

end CommandLine

end LockOrder
