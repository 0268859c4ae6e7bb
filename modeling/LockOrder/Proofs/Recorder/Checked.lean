import LockOrder.Proofs.Graph.Projection
import LockOrder.Proofs.Recorder.Coherent
import LockOrder.Proofs.Recorder.Finish

/-!
# Recording with every position checked

A recorder works with positions: of the class of a lock that is held, of the pairs in a bucket, of
the node of a class. A position past the end would change nothing or be read as a default, and so
would not show. Here the same work is done with every position checked, and a position past the end
is a fault that ends the run. As the parts of a recorder fit together, there is no such fault: the
run and the graph that is made of it, node by node and edge by edge, are the same with the checks
and without.

## Main definitions

* `Evidence.checkedAdd` — one more sighting
* `Recorder.checkedPerform`, `Recorder.checkedRun` — calls and runs
* `Recorder.checkedFinish` — the lock graph of all that was recorded

## Main results

* `Evidence.Indexed.checkedAdd_eq_ok` — counting in indexed evidence
* `Recorder.Mirrors.checkedPerform_eq_ok`, `Recorder.checkedRun_eq_ok` — no call meets a fault
* `Recorder.Coherent.checkedFinish_eq_ok` — neither does the making of the graph
* `Recorder.run_stays_coherent` — a recorder stays coherent, and no position is past the end
-/

namespace LockOrder

/-- Writes at a position of an array. -/
def writeAt {α : Type} (xs : Array α) (position : Nat) (x : α) : Except Fault (Array α) := do
  let _ ← arrayAt xs position
  return xs.setIfInBounds position x

theorem writeAt_eq_ok {α : Type} {xs : Array α} {position : Nat} (h : position < xs.size) (x : α) :
    writeAt xs position x = .ok (xs.setIfInBounds position x) := by
  rw [writeAt, arrayAt_of_lt h]
  rfl

/-! ### Evidence -/

namespace Evidence

variable {e : Evidence} {a b : Stack}

/-- The first of some positions whose pair has these stacks. Each pair on the way is read. -/
def seek (e : Evidence) (first second : Stack) : List Nat → Except Fault (Option Nat)
  | [] => .ok none
  | i :: rest => do
    let pair ← arrayAt e.pairs i
    if pair.first = first ∧ pair.second = second then .ok (some i)
    else e.seek first second rest

/-- Counts a sighting of two stacks, with every position checked. -/
def checkedAdd (e : Evidence) (first second : Stack) : Except Fault Evidence := do
  let key := first.hash ^^^ second.hash
  match ← e.seek first second (e.bucket key) with
  | some i =>
    return { e with pairs := e.pairs.modify i fun pair => { pair with count := pair.count + 1 } }
  | none =>
    return {
      pairs := e.pairs.push ⟨first, second, 1⟩
      buckets := e.buckets.insert key (e.bucket key ++ [e.pairs.size]) }

/-- If all positions are those of pairs, the search reads them without a fault. -/
theorem seek_eq_ok {positions : List Nat} (h : ∀ i ∈ positions, i < e.pairs.size) :
    e.seek a b positions = .ok (positions.find? (e.matchesAt a b)) := by
  induction positions with
  | nil => rfl
  | cons i rest ih =>
    obtain ⟨hi, hrest⟩ := List.forall_mem_cons.mp h
    have hmatches : e.matchesAt a b i = decide (e.pairs[i].first = a ∧ e.pairs[i].second = b) := by
      rw [matchesAt, Array.getElem?_eq_getElem hi]
    rw [seek, arrayAt_of_lt hi, List.find?_cons, hmatches]
    change (if _ then _ else _) = _
    by_cases hpair : e.pairs[i].first = a ∧ e.pairs[i].second = b
    · rw [if_pos hpair, decide_eq_true hpair]
    · rw [if_neg hpair, decide_eq_false hpair, ih hrest]

theorem Indexed.lt_of_mem_bucket {hash : Stack → UInt64} (h : e.Indexed hash) {key : UInt64}
    {i : Nat} (hi : i ∈ e.bucket key) : i < e.pairs.size := by
  unfold bucket at hi
  cases hget : e.buckets.get? key with
  | none => simp [hget] at hi
  | some positions =>
    rw [hget, Option.getD_some] at hi
    exact h.inside _ ((Dictionary.mem_entries_iff h.distinct).mpr hget) i hi

/-- To count in indexed evidence reads no position past the end. -/
theorem Indexed.checkedAdd_eq_ok (h : e.Indexed Stack.hash) (a b : Stack) :
    e.checkedAdd a b = .ok (e.add a b) := by
  rw [checkedAdd, seek_eq_ok fun i => h.lt_of_mem_bucket]
  cases hfind : (e.bucket (a.hash ^^^ b.hash)).find? (e.matchesAt a b) with
  | some i =>
    rw [add, addWith_of_find?_eq_some hfind]
    rfl
  | none =>
    rw [add, addWith_of_find?_eq_none hfind]
    rfl

end Evidence

/-! ### Calls -/

namespace Recorder

variable {r : Recorder} {l : Ledger} {classes : Array LockClass} {log : List Sighting}
  {order : List Nat} {size c : Nat}

/-- Notes that `new` was taken while `held` was held, with every position checked. -/
def checkedNoteEdge (classes : Array LockClass) (held new : Held) :
    Except Fault (Array LockClass) :=
  if held.lockClass = new.lockClass ∧ held.rank < new.rank then .ok classes
  else do
    let k ← arrayAt classes held.lockClass
    let evidence ← ((k.out.get? new.lockClass).getD .empty).checkedAdd held.stack new.stack
    writeAt classes held.lockClass { k with out := k.out.insert new.lockClass evidence }

/-- Notes that `new` was taken while all of `held` were held, with every position checked. -/
def checkedNoteEdges (classes : Array LockClass) (held : List Held) (new : Held) :
    Except Fault (Array LockClass) :=
  held.foldlM (fun classes h => checkedNoteEdge classes h new) classes

/-- A thread takes a lock, with every position checked. -/
def checkedTake (r : Recorder) (thread : Nat) (new : Held) : Except Fault Recorder := do
  let classes ← checkedNoteEdges r.classes (r.heldBy thread) new
  return { r with
    classes := classes
    threads := r.threads.insert thread (r.heldBy thread ++ [new]) }

/-- A thread might take a lock; every position is checked. -/
def checkedMayAcquire (r : Recorder) (thread lock : Nat) (stack : Stack) :
    Except Fault (Recorder × List Event) :=
  if r.heldBy thread = [] then .ok (r, [])
  else do
    let (c, r', events) := r.classForLock thread lock stack
    let classes ← checkedNoteEdges r'.classes (r.heldBy thread) ⟨lock, c, 0, stack⟩
    return ({ r' with classes := classes }, events)

/-- What a call does, with every position checked. -/
def checkedPerform (r : Recorder) : Call → Except Fault (Recorder × List Event)
  | .acquire thread lock stack => do
    let (c, r', events) := r.classForLock thread lock stack
    return (← r'.checkedTake thread ⟨lock, c, 0, stack⟩, events)
  | .acquireLabeled thread lock stack label rank => do
    let (c, r') := r.classForLabel label
    return (← r'.checkedTake thread ⟨lock, c, rank, stack⟩, [])
  | .mayAcquire thread lock stack => r.checkedMayAcquire thread lock stack
  | .name lock label => .ok (r.nameLock lock label, [])
  | .release thread lock => .ok (r.release thread lock)
  | .intern frames => .ok ((r.internStack frames).2, [])

/-- The recorder after a run, with every position checked. -/
def checkedRun (r : Recorder) (calls : List Call) : Except Fault Recorder :=
  calls.foldlM (fun r call => do return (← r.checkedPerform call).1) r

/-- Between classes, an edge is noted without a position past the end. -/
theorem Tracks.checkedNoteEdge_eq_ok (h : Tracks classes log) {held new : Held}
    (hheld : held.lockClass < classes.size) (hnew : new.lockClass < classes.size) :
    checkedNoteEdge classes held new = .ok (Recorder.noteEdge classes held new) := by
  rw [checkedNoteEdge, Recorder.noteEdge]
  split
  · rfl
  · have hread := Array.getElem?_eq_getElem hheld
    rw [arrayAt_of_lt hheld, modify_eq_setIfInBounds hread]
    change (Evidence.checkedAdd _ _ _ >>= fun _ => _) = _
    rw [(h.indexed hread hnew).checkedAdd_eq_ok]
    exact writeAt_eq_ok hheld _

/-- Under a class that is not there, the recorder passes over what the check shows. -/
example : noteEdge #[] ⟨1, 0, 0, ⟨[]⟩⟩ ⟨2, 0, 0, ⟨[]⟩⟩ = #[] ∧
    checkedNoteEdge #[] ⟨1, 0, 0, ⟨[]⟩⟩ ⟨2, 0, 0, ⟨[]⟩⟩ = .error (.index 0 0) :=
  ⟨rfl, rfl⟩

/-- An acquisition notes its edges without a position past the end. -/
theorem Tracks.checkedNoteEdges_eq_ok (h : Tracks classes log) {held : List Held} {new : Held}
    (hheld : ∀ k ∈ held, k.lockClass < classes.size) (hnew : new.lockClass < classes.size) :
    checkedNoteEdges classes held new = .ok (Recorder.noteEdges classes held new) := by
  refine Outcome.foldlM_eq_ok (fun done => Recorder.noteEdges classes done new)
    fun done k hsofar => ?_
  have hmem : ∀ k' ∈ done ++ [k], k' ∈ held := fun k' hk' => hsofar.subset hk'
  -- the edges that were noted so far are log entries, so the evidence is still indexed
  have hdone := h.noteEdges done new (fun k' hk' => hheld k' (hmem k' (by simp [hk']))) hnew
  have hstep : Recorder.noteEdges classes (done ++ [k]) new =
      Recorder.noteEdge (Recorder.noteEdges classes done new) k new := by
    rw [Recorder.noteEdges, List.foldl_append]
    rfl
  rw [hstep]
  apply hdone.checkedNoteEdge_eq_ok
  · rw [size_noteEdges]
    exact hheld k (hmem k (by simp))
  · rwa [size_noteEdges]

theorem Mirrors.checkedTake_eq_ok (h : Mirrors r l) (thread : Nat) {new : Held}
    (hnew : new.lockClass < r.classes.size) :
    r.checkedTake thread new = .ok (r.take thread new) := by
  rw [checkedTake, h.tracks.checkedNoteEdges_eq_ok (h.held_lt thread) hnew]
  rfl

/-- No call of a recorder that mirrors a ledger meets a position past the end. -/
theorem Mirrors.checkedPerform_eq_ok (h : Mirrors r l) (call : Call) :
    r.checkedPerform call = .ok (r.perform call) := by
  cases call with
  | name lock label => rfl
  | release thread lock => rfl
  | intern frames => rfl
  | acquire thread lock stack =>
    obtain ⟨c, r', events, hclass, hc, _, hr'⟩ := h.classForLock thread lock stack
    rw [Recorder.perform, acquire, checkedPerform, hclass]
    dsimp only
    rw [hr'.checkedTake_eq_ok thread (lt_of_classLabel?_eq_some hc)]
    rfl
  | acquireLabeled thread lock stack label rank =>
    obtain ⟨c, r', hclass, hc, _, hr'⟩ := h.classForLabel label
    rw [Recorder.perform, acquireLabeled, checkedPerform, hclass]
    dsimp only
    rw [hr'.checkedTake_eq_ok thread (lt_of_classLabel?_eq_some hc)]
    rfl
  | mayAcquire thread lock stack =>
    rw [Recorder.perform, checkedPerform, checkedMayAcquire]
    by_cases hheld : r.heldBy thread = []
    · rw [if_pos hheld, mayAcquire_of_eq_nil hheld]
    · obtain ⟨c, r', events, hclass, hc, hthreads, hr'⟩ := h.classForLock thread lock stack
      rw [if_neg hheld, mayAcquire_of_ne_nil hheld, hclass, ← heldBy_congr hthreads]
      dsimp only
      rw [hr'.tracks.checkedNoteEdges_eq_ok (hr'.held_lt thread) (lt_of_classLabel?_eq_some hc)]
      rfl

/-- No run meets a position past the end. -/
theorem checkedRun_eq_ok (table : StackTable) (calls : List Call) :
    (empty table).checkedRun calls = .ok ((empty table).run calls) := by
  refine Outcome.foldlM_eq_ok (fun done => (empty table).run done) fun done call _ => ?_
  rw [(mirrors_run table done).checkedPerform_eq_ok, run_concat]
  rfl

/-! ### The recorded graph -/

/-- The classes with their labels, each of which is read at its class. -/
def checkedLabels (r : Recorder) : Except Fault (List (Nat × String)) :=
  (List.range r.classes.size).mapM fun c => do return (c, (← arrayAt r.classes c).label)

/-- The classes by label. -/
def checkedOrder (r : Recorder) : Except Fault (List Nat) := do
  return ((← r.checkedLabels).mergeSort fun a b => a.2 ≤ b.2).map Prod.fst

/-- The node of each class, written one class after another. -/
def checkedNodes (size : Nat) (order : List Nat) : Except Fault (Array Nat) := do
  let numbered ← order.foldlM
    (fun state c => do return (state.1 + 1, ← writeAt state.2 c state.1)) (0, Array.replicate size 0)
  return numbered.2

/-- Appends a node for a class. -/
def checkedAddNode (r : Recorder) (g : Graph) (c : Nat) : Except Fault Graph := do
  return (g.addNode (← arrayAt r.classes c).label).2

/-- The evidence of a class with the nodes of its targets. -/
def checkedTargets (nodes : Array Nat) (k : LockClass) : Except Fault (List (Nat × Evidence)) :=
  k.out.entries.mapM fun entry => do return (← arrayAt nodes entry.1, entry.2)

/-- Appends an edge to the out-edges of a class. -/
def checkedAddEdge (nodes : Array Nat) (c : Nat) (g : Graph) (edge : Nat × Evidence) :
    Except Fault Graph := do
  return (← g.addEdge (← arrayAt nodes c) edge.1 edge.2.toEdge).2

/-- Appends the out-edges of a class by target. -/
def checkedAddOut (r : Recorder) (nodes : Array Nat) (g : Graph) (c : Nat) :
    Except Fault Graph := do
  let k ← arrayAt r.classes c
  let out ← checkedTargets nodes k
  (out.mergeSort fun a b => a.1 ≤ b.1).foldlM (checkedAddEdge nodes c) g

/-- The lock graph of all that was recorded so far, made node by node and edge by edge with every
position checked. -/
def checkedFinish (r : Recorder) : Except Fault Graph := do
  let order ← r.checkedOrder
  let nodes ← checkedNodes r.classes.size order
  let g ← order.foldlM r.checkedAddNode (.empty r.table)
  order.foldlM (r.checkedAddOut nodes) g

theorem label_getElem_classes (hc : c < r.classes.size) : r.classes[c].label = r.labelOf c := by
  simp [labelOf, hc]

theorem checkedLabels_eq_ok (r : Recorder) :
    r.checkedLabels = .ok ((List.range r.classes.size).map fun c => (c, r.labelOf c)) := by
  refine Outcome.mapM_eq_ok_map fun c hc => ?_
  have hlt : c < r.classes.size := List.mem_range.mp hc
  rw [arrayAt_of_lt hlt, ← label_getElem_classes hlt]
  rfl

theorem checkedOrder_eq_ok (r : Recorder) : r.checkedOrder = .ok r.classOrder := by
  rw [checkedOrder, checkedLabels_eq_ok]
  change Except.ok _ = _
  -- to sort the classes with their labels is to sort the classes by them
  rw [classOrder, ← List.map_mergeSort (r := fun a b => r.labelOf a ≤ r.labelOf b)
    (fun _ _ _ _ => rfl), List.map_map]
  exact congrArg _ (List.map_id _)

/-- The nodes of classes when those in a list are numbered by their positions there. -/
def nodeArray (size : Nat) (done : List Nat) : Array Nat :=
  ((List.range size).map fun c => if c ∈ done then done.idxOf c else 0).toArray

theorem getElem?_nodeArray (hc : c < size) (done : List Nat) :
    (nodeArray size done)[c]? = some (if c ∈ done then done.idxOf c else 0) := by
  simp [nodeArray, hc]

theorem size_nodeArray (size : Nat) (done : List Nat) : (nodeArray size done).size = size := by
  simp [nodeArray]

/-- The next class has the next node. -/
theorem setIfInBounds_nodeArray {done : List Nat} (hc : c ∉ done) :
    (nodeArray size done).setIfInBounds c done.length = nodeArray size (done ++ [c]) := by
  refine Array.ext_getElem? fun d => ?_
  rw [Array.getElem?_setIfInBounds, size_nodeArray]
  by_cases hd : d < size
  · rw [getElem?_nodeArray hd, getElem?_nodeArray hd]
    by_cases hcd : c = d
    · subst hcd
      simp [hd, List.idxOf_append_of_notMem hc]
    · by_cases hmem : d ∈ done
      · simp [hcd, hmem, List.idxOf_append_of_mem hmem]
      · simp [hcd, hmem, Ne.symm hcd]
  · by_cases hcd : c = d <;> simp [hcd, hd, nodeArray]

/-- The classes are numbered without a position past the end. -/
theorem checkedNodes_eq_ok (hnodup : order.Nodup) (hlt : ∀ c ∈ order, c < size) :
    checkedNodes size order = .ok (nodeArray size order) := by
  have hstart : (0, Array.replicate size 0) = (([] : List Nat).length, nodeArray size []) := by
    simp [nodeArray]
  rw [checkedNodes, hstart,
    Outcome.foldlM_eq_ok (fun done => (done.length, nodeArray size done)) fun done c hsofar => ?_]
  · rfl
  · -- no class is numbered twice
    have hnew : c ∉ done := by
      have hdone := hnodup.sublist hsofar.sublist
      rw [List.nodup_append] at hdone
      exact fun hmem => hdone.2.2 c hmem c (List.mem_singleton_self c) rfl
    have hc : c < (nodeArray size done).size := by
      rw [size_nodeArray]
      exact hlt c (hsofar.subset (by simp))
    rw [writeAt_eq_ok hc, setIfInBounds_nodeArray hnew, List.length_append]
    rfl

theorem arrayAt_nodeArray_eq_ok (hlt : ∀ c ∈ order, c < size) (hc : c ∈ order) :
    arrayAt (nodeArray size order) c = .ok (order.idxOf c) := by
  rw [arrayAt_eq_ok_iff, getElem?_nodeArray (hlt c hc), if_pos hc]

/-- The out-edges of classes, with the node of each class. -/
def edgesFrom (r : Recorder) (done : List Nat) : List (Nat × Edge × Nat) :=
  done.flatMap fun c => (r.outEdges r.classOrder c).map fun edge =>
    (r.classOrder.idxOf c, edge.2, edge.1)

/-- The nodes are appended in the order of the classes. -/
theorem foldlM_checkedAddNode (hlt : ∀ c ∈ order, c < r.classes.size) :
    order.foldlM r.checkedAddNode (.empty r.table) =
      .ok (Graph.assemble r.table (order.map r.labelOf) []) := by
  refine Outcome.foldlM_eq_ok (fun done => Graph.assemble r.table (done.map r.labelOf) [])
    fun done c hsofar => ?_
  have hc : c < r.classes.size := hlt c (hsofar.subset (by simp))
  rw [checkedAddNode, arrayAt_of_lt hc]
  change Except.ok _ = Except.ok _
  rw [label_getElem_classes hc, Graph.addNode_assemble, List.map_append]
  rfl

theorem checkedTargets_eq_ok {k : LockClass} {nodes : Array Nat}
    (hnodes : ∀ entry ∈ k.out.entries, arrayAt nodes entry.1 = .ok (order.idxOf entry.1)) :
    checkedTargets nodes k =
      .ok (k.out.entries.map fun entry => (order.idxOf entry.1, entry.2)) := by
  refine Outcome.mapM_eq_ok_map fun entry hentry => ?_
  rw [hnodes entry hentry]
  rfl

/-- Edges are appended one after another, after any others. -/
theorem foldlM_checkedAddEdge {table : StackTable} {labels : List String} {nodes : Array Nat}
    {source : Nat} (hsource : arrayAt nodes c = .ok source) (hlt : source < labels.length)
    (kept : List (Nat × Edge × Nat)) {out : List (Nat × Evidence)}
    (hout : ∀ edge ∈ out, edge.1 < labels.length) :
    out.foldlM (checkedAddEdge nodes c) (Graph.assemble table labels kept) =
      .ok (Graph.assemble table labels
        (kept ++ out.map fun edge => (source, edge.2.toEdge, edge.1))) := by
  let state (done : List (Nat × Evidence)) : Graph := Graph.assemble table labels
    (kept ++ done.map fun edge => (source, edge.2.toEdge, edge.1))
  have hstart : Graph.assemble table labels kept = state [] := by simp [state]
  rw [hstart]
  refine Outcome.foldlM_eq_ok state fun done edge hsofar => ?_
  obtain ⟨id, hadd⟩ := Graph.addEdge_assemble table
    (kept ++ done.map fun edge => (source, edge.2.toEdge, edge.1)) edge.2.toEdge hlt
    (hout edge (hsofar.subset (by simp)))
  rw [checkedAddEdge, hsource]
  change (Graph.addEdge (state done) source edge.1 edge.2.toEdge >>= fun _ => _) = _
  rw [hadd]
  simp only [state, List.map_append, List.map_cons, List.map_nil, List.append_assoc]
  rfl

/-- To sort the evidence of a class by target and to make edges of it may be done in any order. -/
theorem map_toEdge_mergeSort {k : LockClass} (hk : r.classes[c]? = some k) :
    ((k.out.entries.map fun entry => (order.idxOf entry.1, entry.2)).mergeSort
      fun a b => a.1 ≤ b.1).map (fun edge => (edge.1, edge.2.toEdge)) = r.outEdges order c := by
  refine (List.map_mergeSort (s := fun a b : Nat × Edge => a.1 ≤ b.1)
    fun _ _ _ _ => rfl).trans ?_
  rw [List.map_map, outEdges, hk]
  rfl

/-- The out-edges of a class are appended after any others. -/
theorem Coherent.checkedAddOut_eq_ok (h : r.Coherent) {labels : List String}
    (hlength : r.classOrder.length = labels.length) (kept : List (Nat × Edge × Nat))
    (hc : c < r.classes.size) :
    r.checkedAddOut (nodeArray r.classes.size r.classOrder) (Graph.assemble r.table labels kept) c =
      .ok (Graph.assemble r.table labels (kept ++ r.edgesFrom [c])) := by
  have hread : ∀ {d}, d < r.classes.size →
      arrayAt (nodeArray r.classes.size r.classOrder) d = .ok (r.classOrder.idxOf d) := fun {d} hd =>
    arrayAt_nodeArray_eq_ok (fun _ => mem_classOrder.mp) (mem_classOrder.mpr hd)
  have hnode : ∀ {d}, d < r.classes.size → r.classOrder.idxOf d < labels.length := fun {d} hd =>
    hlength ▸ List.idxOf_lt_length_of_mem (mem_classOrder.mpr hd)
  have htargets : ∀ entry ∈ r.classes[c].out.entries, entry.1 < r.classes.size :=
    h.target_lt _ (Array.getElem_mem hc)
  rw [checkedAddOut, arrayAt_of_lt hc]
  change (checkedTargets _ r.classes[c] >>= fun _ => _) = _
  rw [checkedTargets_eq_ok fun entry hentry => hread (htargets entry hentry)]
  refine (foldlM_checkedAddEdge (hread hc) (hnode hc) kept fun edge hedge => ?_).trans ?_
  · obtain ⟨entry, hentry, rfl⟩ := List.mem_map.mp (List.mem_mergeSort.mp hedge)
    exact hnode (htargets entry hentry)
  · rw [edgesFrom, List.flatMap_singleton,
      ← map_toEdge_mergeSort (Array.getElem?_eq_getElem hc), List.map_map]
    rfl

/-- The nodes and the out-edges of all classes are the recorded graph. -/
theorem assemble_edgesFrom (r : Recorder) :
    Graph.assemble r.table (r.classOrder.map r.labelOf) (r.edgesFrom r.classOrder) = r.finish := by
  have hedges := buckets_flatMap r.nodup_classOrder fun c =>
    (r.outEdges r.classOrder c).map Prod.snd
  have htargets := buckets_flatMap r.nodup_classOrder fun c =>
    (r.outEdges r.classOrder c).map Prod.fst
  simp only [List.map_map, Function.comp_def] at hedges htargets
  simp only [Graph.assemble, edgesFrom, List.map_flatMap, List.map_map, Function.comp_def,
    List.length_map, hedges, htargets, finish]

/-- The graph of a coherent recorder is made without a position past the end. -/
theorem Coherent.checkedFinish_eq_ok (h : r.Coherent) : r.checkedFinish = .ok r.finish := by
  have hlt : ∀ c ∈ r.classOrder, c < r.classes.size := fun _ => mem_classOrder.mp
  -- with all nodes there, the graph is that of the out-edges of the classes so far
  let state (done : List Nat) : Graph :=
    Graph.assemble r.table (r.classOrder.map r.labelOf) (r.edgesFrom done)
  have hout : r.classOrder.foldlM (r.checkedAddOut (nodeArray r.classes.size r.classOrder))
      (state []) = .ok (state r.classOrder) := by
    refine Outcome.foldlM_eq_ok state fun done c hsofar => ?_
    have hc := hlt c (hsofar.subset (by simp))
    rw [h.checkedAddOut_eq_ok (by simp) _ hc]
    simp only [state, edgesFrom, List.flatMap_append]
  rw [checkedFinish, checkedOrder_eq_ok]
  change (checkedNodes _ _ >>= fun _ => _) = _
  rw [checkedNodes_eq_ok r.nodup_classOrder hlt]
  change (r.classOrder.foldlM r.checkedAddNode (.empty r.table) >>= fun _ => _) = _
  rw [foldlM_checkedAddNode hlt]
  exact hout.trans (congrArg _ r.assemble_edgesFrom)

/-- **A recorder stays coherent, and no position is past the end**, whatever the run. After it, no
dictionary has a key twice. A label leads to the class that has it and to no other, so labels
differ. The classes that are remembered for locks, those under which locks are held and those to
which evidence leads are classes of the recorder. A class that is remembered for a lock has the
label that the lock was given last, or its number; so to look it up afresh gives the same class and
the same recorder. In all evidence each pair is filed once, under its own hash and under no other
one, no pair of stacks comes twice, and every pair was seen. With every position checked, neither
the run nor the making of the graph meets a fault, and both come to the same result. -/
theorem run_stays_coherent (table : StackTable) (calls : List Call) :
    let r := (empty table).run calls
    r.Coherent ∧
      (r.classes.toList.map LockClass.label).Nodup ∧
      (∀ entry ∈ r.classOfLock.entries, entry.2 < r.classes.size) ∧
      (∀ thread lock stack,
        let found := (r.forget lock).classForLock thread lock stack
        let remembered := r.classForLock thread lock stack
        found.1 = remembered.1 ∧
          ∃ cache, found.2.1 = { remembered.2.1 with classOfLock := cache } ∧
            ∀ k, cache.get? k = remembered.2.1.classOfLock.get? k) ∧
      (empty table).checkedRun calls = .ok r ∧
      r.checkedFinish = .ok r.finish := by
  intro r
  have hcoherent : r.Coherent := coherent_run table calls
  exact ⟨hcoherent, hcoherent.nodup_labels, hcoherent.cached_lt, hcoherent.classForLock_forget,
    checkedRun_eq_ok table calls, hcoherent.checkedFinish_eq_ok⟩

end Recorder

end LockOrder
