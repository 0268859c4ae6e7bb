import LockOrder.Error
import LockOrder.Proofs.Graph.Sound

/-!
# The check of lock graphs

A graph from outside may have arrays of any sizes. Its check goes through the nodes by the number of
labels, and through the edges by the lists of targets, and reads the other arrays at the same
positions. It never reads a position that is not there, because each of its tests comes after the
ones that it relies on. The check accepts a graph exactly if the graph has the structure that all
else relies on, and otherwise reports a flaw that the graph has.

## Main definitions

* `StackTable.PosFlaw.Present`, `Graph.Flaw.Present` — what a flaw says about a frame or a graph
* `Graph.checkByPosition` — the check as it reads the arrays, with a fault where it cannot

## Main results

* `Graph.present_of_check` — a flaw that is reported is there
* `Graph.checkByPosition_eq` — reading by position the check meets no fault
* `Graph.check_exact` — the check accepts exactly the graphs with the right structure
-/

namespace LockOrder

/-! ### Flaws that are there -/

/-- A frame points outside its tables as the flaw says. -/
def StackTable.PosFlaw.Present (t : StackTable) (pos : Pos) : StackTable.PosFlaw → Prop
  | .file index files =>
    (∃ func line, pos = .resolved index func line) ∧ files = t.files.size ∧ files ≤ index
  | .func index funcs =>
    (∃ file line, pos = .resolved file index line) ∧ funcs = t.funcs.size ∧ funcs ≤ index

theorem StackTable.present_of_check {t : StackTable} {pos : Pos} {flaw : StackTable.PosFlaw}
    (h : t.check pos = .error flaw) : flaw.Present t pos := by
  cases pos with
  | unresolved text => cases h
  | resolved file func line =>
    rw [check] at h
    by_cases hfile : t.files.size ≤ file
    · rw [if_pos hfile] at h
      obtain rfl := Except.error.inj h
      exact ⟨⟨func, line, rfl⟩, rfl, hfile⟩
    · rw [if_neg hfile] at h
      by_cases hfunc : t.funcs.size ≤ func
      · rw [if_pos hfunc] at h
        obtain rfl := Except.error.inj h
        exact ⟨⟨file, line, rfl⟩, rfl, hfunc⟩
      · rw [if_neg hfunc] at h
        cases h

namespace Graph

variable {g : Graph} {flaw : Flaw} {node : Nat} {es : List Edge} {ts : List Nat} {e : EdgeId}
  {edge : Edge} {p : StackPair}

/-- A graph has the flaw. -/
def Flaw.Present (g : Graph) : Flaw → Prop
  | .sizes labels edges targets =>
    labels = g.labels.size ∧ edges = g.edges.size ∧ targets = g.targets.size ∧
      ¬ (edges = labels ∧ targets = labels)
  | .outDegree node edges targets =>
    ∃ es ts, g.edges[node]? = some es ∧ g.targets[node]? = some ts ∧ edges = es.length ∧
      targets = ts.length ∧ edges ≠ targets
  | .strayTarget node target =>
    ∃ ts, g.targets[node]? = some ts ∧ target ∈ ts ∧ g.labels.size ≤ target
  | .zeroCount e => ∃ edge, g.edgeAt e = .ok edge ∧ ∃ p ∈ edge.pairs, p.count = 0
  | .frame e flaw =>
    ∃ edge, g.edgeAt e = .ok edge ∧ ∃ p ∈ edge.pairs,
      ∃ pos ∈ p.first.frames ++ p.second.frames, flaw.Present g.table pos

theorem present_of_checkNode (hes : g.edges[node]? = some es) (hts : g.targets[node]? = some ts)
    (h : checkNode g.nodeCount node es ts = .error flaw) : flaw.Present g := by
  rw [checkNode] at h
  by_cases hlength : es.length = ts.length
  · rw [if_neg (not_not.mpr hlength)] at h
    cases hfind : ts.find? fun t => g.nodeCount ≤ t with
    | none =>
      rw [hfind] at h
      cases h
    | some t =>
      rw [hfind] at h
      obtain rfl := Except.error.inj h
      have hle : g.nodeCount ≤ t := by simpa using List.find?_some hfind
      exact ⟨ts, hts, List.mem_of_find?_eq_some hfind, hle⟩
  · rw [if_pos hlength] at h
    obtain rfl := Except.error.inj h
    exact ⟨es, ts, hes, hts, rfl, rfl, hlength⟩

theorem present_of_checkPair (he : g.edgeAt e = .ok edge) (hp : p ∈ edge.pairs)
    (h : checkPair g.table e p = .error flaw) : flaw.Present g := by
  unfold checkPair at h
  by_cases hcount : p.count = 0
  · simp only [hcount, if_true] at h
    obtain rfl := Except.error.inj h
    exact ⟨edge, he, p, hp, hcount⟩
  · simp only [hcount, if_false] at h
    change List.forM _ _ = _ at h
    obtain ⟨pos, hpos, hframe⟩ := Outcome.exists_of_forM_eq_error h
    obtain ⟨flaw', hcheck, rfl⟩ := Outcome.mapError_eq_error_iff.mp hframe
    exact ⟨edge, he, p, hp, pos, hpos, StackTable.present_of_check hcheck⟩

/-- A flaw that the check reports is there. -/
theorem present_of_check (h : g.check = .error flaw) : flaw.Present g := by
  unfold check at h
  by_cases hsizes : g.edges.size ≠ g.nodeCount ∨ g.targets.size ≠ g.nodeCount
  · simp only [hsizes, if_true] at h
    obtain rfl := Except.error.inj h
    exact ⟨rfl, rfl, rfl, fun heq => hsizes.elim (· heq.1) (· heq.2)⟩
  · simp only [hsizes, if_false] at h
    change (List.forM _ _ >>= fun _ => List.forM _ _) = _ at h
    -- the flaw was found at a node, or at a pair of stacks of an edge that can be read
    rcases Outcome.bind_eq_error_iff.mp h with hnodes | ⟨_, _, hevidence⟩
    · obtain ⟨⟨⟨es, ts⟩, node⟩, hnode, herror⟩ := Outcome.exists_of_forM_eq_error hnodes
      simp only [List.mem_zipIdx_iff_getElem?, List.getElem?_zip_eq_some,
        Array.getElem?_toList] at hnode
      exact present_of_checkNode hnode.1 hnode.2 herror
    · obtain ⟨⟨es, node⟩, hnode, herror⟩ := Outcome.exists_of_forM_eq_error hevidence
      obtain ⟨⟨edge, i⟩, hedge, herror⟩ := Outcome.exists_of_forM_eq_error herror
      obtain ⟨p, hp, herror⟩ := Outcome.exists_of_forM_eq_error herror
      simp only [List.mem_zipIdx_iff_getElem?, Array.getElem?_toList] at hnode hedge
      exact present_of_checkPair (edgeAt_eq_ok_iff.mpr ⟨es, hnode, hedge⟩) hp herror

/-! ### Checking by position -/

/-- Why a check by position ends early. -/
inductive Halt where
  /-- A position is not there. -/
  | fault (fault : Fault)
  /-- The graph has a flaw. -/
  | flaw (flaw : Flaw)
deriving DecidableEq, Repr

/-- Checks the out-edges of a node, of which the evidence and the targets are read. -/
def checkNodeAt (g : Graph) (node : Nat) : Except Halt Unit := do
  let edges ← (arrayAt g.edges node).mapError Halt.fault
  let targets ← (arrayAt g.targets node).mapError Halt.fault
  (checkNode g.nodeCount node edges targets).mapError Halt.flaw

/-- Checks the evidence of an edge, which is read. -/
def checkEdgeAt (g : Graph) (e : EdgeId) : Except Halt Unit := do
  let edge ← (g.edgeAt e).mapError Halt.fault
  (edge.pairs.forM (checkPair g.table e)).mapError Halt.flaw

/-- The check of a graph that reads the nodes by the number of labels, and then the edges by the
lists of targets. -/
def checkByPosition (g : Graph) : Except Halt Unit := do
  if g.edges.size ≠ g.nodeCount ∨ g.targets.size ≠ g.nodeCount then
    throw (.flaw (.sizes g.nodeCount g.edges.size g.targets.size))
  (List.range g.nodeCount).forM g.checkNodeAt
  g.edgeIds.forM g.checkEdgeAt

theorem checkNodeAt_eq (hes : g.edges[node]? = some es) (hts : g.targets[node]? = some ts) :
    g.checkNodeAt node = (checkNode g.nodeCount node es ts).mapError Halt.flaw := by
  rw [checkNodeAt, arrayAt_eq_ok_iff.mpr hes, arrayAt_eq_ok_iff.mpr hts]
  rfl

theorem checkEdgeAt_eq (he : g.edgeAt e = .ok edge) :
    g.checkEdgeAt e = (edge.pairs.forM (checkPair g.table e)).mapError Halt.flaw := by
  rw [checkEdgeAt, he]
  rfl

/-- The nodes can be read if the arrays have the same size. -/
theorem forM_checkNodeAt (hedges : g.edges.size = g.nodeCount)
    (htargets : g.targets.size = g.nodeCount) :
    (List.range g.nodeCount).forM g.checkNodeAt =
      ((g.edges.toList.zip g.targets.toList).zipIdx.forM fun entry =>
        checkNode g.nodeCount entry.2 entry.1.1 entry.1.2).mapError Halt.flaw := by
  rw [Outcome.mapError_forM]
  apply Outcome.forM_eq_of_forall₂
  refine forall₂_of_getElem? (by simp [hedges, htargets]) fun i node entry hnode hentry => ?_
  obtain ⟨hi, rfl⟩ := List.getElem?_eq_some_iff.mp hnode
  simp only [List.getElem?_zipIdx, Option.map_eq_some_iff, Prod.exists, List.getElem?_zip_eq_some,
    Array.getElem?_toList] at hentry
  obtain ⟨es, ts, ⟨hes, hts⟩, rfl⟩ := hentry
  simpa using checkNodeAt_eq hes hts

/-- The edges of a node can be read if there is evidence for each of its targets. -/
theorem forM_checkEdgeAt_edgesFrom (hes : g.edges[node]? = some es)
    (hlength : (g.digraph.targets node).length = es.length) :
    (g.digraph.edgesFrom node).forM g.checkEdgeAt =
      (checkEvidence g.table node es).mapError Halt.flaw := by
  rw [checkEvidence, Outcome.mapError_forM, Digraph.edgesFrom, hlength]
  apply Outcome.forM_eq_of_forall₂
  rw [List.forall₂_map_left_iff]
  refine forall₂_of_getElem? (by simp) fun i j entry hj hentry => ?_
  obtain ⟨hi, rfl⟩ := List.getElem?_eq_some_iff.mp hj
  simp only [List.getElem?_zipIdx, Option.map_eq_some_iff] at hentry
  obtain ⟨edge, hedge, rfl⟩ := hentry
  simpa using checkEdgeAt_eq (edgeAt_eq_ok_iff.mpr ⟨es, hes, hedge⟩)

/-- All edges can be read if moreover every node has as much evidence as targets. -/
theorem forM_checkEdgeAt (hedges : g.edges.size = g.nodeCount)
    (htargets : g.targets.size = g.nodeCount)
    (hdegree : ∀ (node : Nat) es ts, g.edges[node]? = some es → g.targets[node]? = some ts →
      es.length = ts.length) :
    g.edgeIds.forM g.checkEdgeAt =
      (g.edges.toList.zipIdx.forM fun entry =>
        checkEvidence g.table entry.2 entry.1).mapError Halt.flaw := by
  rw [edgeIds_eq_flatMap, Outcome.forM_flatMap, Outcome.mapError_forM]
  apply Outcome.forM_eq_of_forall₂
  refine forall₂_of_getElem? (by simp [hedges, htargets]) fun i node entry hnode hentry => ?_
  obtain ⟨hi, rfl⟩ := List.getElem?_eq_some_iff.mp hnode
  simp only [List.getElem?_zipIdx, Option.map_eq_some_iff, Array.getElem?_toList] at hentry
  obtain ⟨es, hes, rfl⟩ := hentry
  -- the edges are named after the targets, of which there are as many as pieces of evidence
  have hlt : i < g.targets.size := by simpa using hi
  have hlength : (g.digraph.targets i).length = es.length := by
    rw [hdegree i es g.targets[i] hes (Array.getElem?_eq_getElem hlt)]
    simp [digraph, Digraph.targets, hlt]
  simpa using forM_checkEdgeAt_edgesFrom hes hlength

/-- Reading by position, the check meets no fault and finds what the check finds. -/
theorem checkByPosition_eq (g : Graph) : g.checkByPosition = g.check.mapError Halt.flaw := by
  unfold checkByPosition check
  by_cases hsizes : g.edges.size ≠ g.nodeCount ∨ g.targets.size ≠ g.nodeCount
  · simp only [hsizes, if_true]
    rfl
  · simp only [hsizes, if_false]
    push Not at hsizes
    obtain ⟨hedges, htargets⟩ := hsizes
    change (List.forM _ _ >>= fun _ => List.forM _ _) =
      Except.mapError _ (List.forM _ _ >>= fun _ => List.forM _ _)
    rw [Outcome.mapError_bind, forM_checkNodeAt hedges htargets]
    cases hnodes : (g.edges.toList.zip g.targets.toList).zipIdx.forM fun entry =>
        checkNode g.nodeCount entry.2 entry.1.1 entry.1.2 with
    | error flaw => rfl
    | ok _ =>
      -- only now, with all nodes checked, are the edges read
      rw [forM_checkEdgeAt hedges htargets fun node es ts hes hts => ?_]
      have hnode : ((es, ts), node) ∈ (g.edges.toList.zip g.targets.toList).zipIdx := by
        simp [List.mem_zipIdx_iff_getElem?, List.getElem?_zip_eq_some, hes, hts]
      exact (checkNode_eq_ok_iff.mp (Outcome.forM_eq_ok_iff.mp hnodes _ hnode)).1

/-- An edge with a target and no evidence cannot be read. The check stops before it is. -/
example :
    let g : Graph := ⟨#["a"], #[[]], #[[0]], ⟨⟨#[]⟩, ⟨#[]⟩⟩⟩
    g.edgeIds.forM g.checkEdgeAt = .error (.fault (.index 0 0)) ∧
      g.checkByPosition = .error (.flaw (.outDegree 0 0 1)) := ⟨rfl, rfl⟩

/-! ### What the check accepts -/

/-- A pair of stacks is sound if it was seen and its resolved frames point inside the tables. -/
theorem sound_pair_iff {table : StackTable} :
    p.Sound table ↔ 1 ≤ p.count ∧ ∀ s ∈ [p.first, p.second], ∀ file func line,
      Pos.resolved file func line ∈ s.frames →
        file < table.files.size ∧ func < table.funcs.size := by
  have hframes : ∀ s : Stack, (∀ pos ∈ s.frames, table.Holds pos) ↔ ∀ file func line,
      Pos.resolved file func line ∈ s.frames →
        file < table.files.size ∧ func < table.funcs.size := by
    refine fun s => ⟨fun h file func line => h _, fun h pos hpos => ?_⟩
    cases pos with
    | unresolved text => trivial
    | resolved file func line => exact h file func line hpos
  simp only [List.forall_mem_cons, List.not_mem_nil, false_imp_iff, implies_true, and_true,
    ← hframes]
  exact ⟨fun h => ⟨h.count_pos, h.first, h.second⟩, fun h => ⟨h.1, h.2.1, h.2.2⟩⟩

/-- Soundness, array by array. -/
theorem sound_iff :
    g.Sound ↔ g.edges.size = g.labels.size ∧ g.targets.size = g.labels.size ∧
      (∀ n < g.labels.size, ∃ es ts, g.edges[n]? = some es ∧ g.targets[n]? = some ts ∧
        es.length = ts.length) ∧
      (∀ ts ∈ g.targets, ∀ t ∈ ts, t < g.labels.size) ∧
      ∀ es ∈ g.edges, ∀ e ∈ es, ∀ p ∈ e.pairs, p.Sound g.table := by
  constructor
  · intro h
    refine ⟨h.edges_size, h.targets_size, fun n hn => ?_, fun ts hts => ?_, fun es hes => ?_⟩
    · have hes : g.edges[n]? = some _ := Array.getElem?_eq_getElem (h.edges_size ▸ hn)
      have hts : g.targets[n]? = some _ := Array.getElem?_eq_getElem (h.targets_size ▸ hn)
      exact ⟨_, _, hes, hts, h.degree n _ _ hes hts⟩
    · obtain ⟨n, hn⟩ := Array.mem_iff_getElem?.mp hts
      exact h.inside n ts hn
    · obtain ⟨n, hn⟩ := Array.mem_iff_getElem?.mp hes
      exact h.evidence n es hn
  · rintro ⟨hedges, htargets, hdegree, hinside, hevidence⟩
    refine ⟨hedges, htargets, fun n es ts hes hts => ?_, fun n ts hts => ?_, fun n es hes => ?_⟩
    · obtain ⟨es', ts', hes', hts', hlength⟩ :=
        hdegree n (hedges ▸ (Array.getElem?_eq_some_iff.mp hes).1)
      obtain rfl := Option.some.inj (hes.symm.trans hes')
      obtain rfl := Option.some.inj (hts.symm.trans hts')
      exact hlength
    · exact hinside ts (Array.mem_of_getElem? hts)
    · exact hevidence es (Array.mem_of_getElem? hes)

/-- **The check accepts exactly the graphs with the right structure, and meets no fault.** Whatever
the sizes of its arrays, and whatever is in them, a graph passes the check exactly if there are as
many lists of evidence and as many lists of targets as there are labels; if every node has as much
evidence as targets; if every target is a node; if every pair of stacks was seen at least once; and
if every resolved frame, of the first stack and of the second, has its file and its function inside
the tables. Otherwise the check reports a flaw that the graph has, as a decoding error of the graph
layer. Reading the arrays by position it does the same, and never reads a position that is not
there. -/
theorem check_exact (g : Graph) :
    (g.check = .ok () ↔
      g.edges.size = g.labels.size ∧ g.targets.size = g.labels.size ∧
      (∀ n < g.labels.size, ∃ es ts, g.edges[n]? = some es ∧ g.targets[n]? = some ts ∧
        es.length = ts.length) ∧
      (∀ ts ∈ g.targets, ∀ t ∈ ts, t < g.labels.size) ∧
      ∀ es ∈ g.edges, ∀ e ∈ es, ∀ p ∈ e.pairs, 1 ≤ p.count ∧ ∀ s ∈ [p.first, p.second],
        ∀ file func line, Pos.resolved file func line ∈ s.frames →
          file < g.table.files.size ∧ func < g.table.funcs.size) ∧
      (g.check = .ok () ∨ ∃ flaw, g.check = .error flaw ∧ flaw.Present g ∧
        (Error.graph flaw).kind = .decode ∧ (Error.graph flaw).layer = .graph) ∧
      g.checkByPosition = g.check.mapError Halt.flaw ∧
      ∀ f, g.checkByPosition ≠ .error (.fault f) := by
  refine ⟨?accepts, ?refuses, g.checkByPosition_eq, fun f hfault => ?total⟩
  case accepts =>
    simp only [check_eq_ok_iff, sound_iff, sound_pair_iff]
  case refuses =>
    cases hcheck : g.check with
    | ok _ => exact .inl rfl
    | error flaw => exact .inr ⟨flaw, rfl, present_of_check hcheck, rfl, rfl⟩
  case total =>
    rw [checkByPosition_eq] at hfault
    obtain ⟨flaw, _, heq⟩ := Outcome.mapError_eq_error_iff.mp hfault
    cases heq

end Graph

end LockOrder
