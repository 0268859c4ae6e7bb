import LockOrder.Proofs.Digraph.Components
import LockOrder.Proofs.Graph.Basic
import LockOrder.Report.Text

/-!
# The order of the edges in the text report

The walk of a component shows the out-edges of a node when it reaches the node, and goes on at their
ends in between. What it still has to show is what is left in its frames, and all out-edges of the
nodes that it will reach: whatever the walk does next, it shows just these, each once. When it has
ended, the nodes reached are closed under edges that stay inside the component, so that by strong
connection they are all of it.

## Main definitions

* `Report.pending` — what a frame has still to show
* `Report.InOrder` — the edges of each node come by position
* `Report.Underway` — the frames of a walk that is under way
* `Report.Toured` — what going on with a walk does
* `Report.Behind` — the components that were walked
* `Report.Arranged` — the edges of components in order

## Main results

* `Report.exists_toured` — the walk does what `Toured` says
* `Report.componentWalk_perm` — a component is walked once and in full
* `Report.walks_perm` — so is the graph, component by component
-/

namespace LockOrder.Report

open LockOrder.Digraph (edgesFrom)

variable {g : Digraph} {inside : Nat → Bool} {frames : List Frame} {visited visited' : Array Bool}
  {nodes : List Nat} {shown new : List EdgeId} {c u v w i : Nat} {edges : List (Nat × Nat)}

/-! ### Walks under way -/

/-- The names of the edges that a frame has still to show. -/
def pending (frame : Frame) : List EdgeId := frame.2.map fun edge => ⟨frame.1, edge.2⟩

@[simp]
theorem pending_nil : pending (v, []) = [] := rfl

@[simp]
theorem pending_cons : pending (v, (w, i) :: edges) = ⟨v, i⟩ :: pending (v, edges) := rfl

theorem pending_frameOf : pending (frameOf g v) = g.edgesFrom v :=
  Digraph.edgesFrom_eq_map_zipIdx.symm

theorem node_of_mem_pending {frame : Frame} {e : EdgeId} (he : e ∈ pending frame) :
    e.node = frame.1 := by
  obtain ⟨edge, _, rfl⟩ := List.mem_map.mp he
  rfl

/-- The edges of each node come by position. -/
def InOrder (edges : List EdgeId) : Prop :=
  edges.Pairwise fun d e => d.node = e.node → d.edge < e.edge

/-- The frames of a walk: they belong to different nodes that the walk has reached, and each holds
the last out-edges of its node. -/
structure Underway (g : Digraph) (frames : List Frame) (visited : Array Bool) : Prop where
  /-- What is left of a frame are the last out-edges of its node. -/
  suffix : ∀ frame ∈ frames, frame.2 <:+ (g.targets frame.1).zipIdx
  /-- The nodes of the frames were reached. -/
  reached : ∀ frame ∈ frames, visited[frame.1]? = some true
  /-- No node has two frames. -/
  nodup : (frames.map Prod.fst).Nodup

theorem Underway.pop {frame : Frame} (h : Underway g (frame :: frames) visited) :
    Underway g frames visited :=
  ⟨fun f hf => h.suffix f (List.mem_cons_of_mem _ hf),
    fun f hf => h.reached f (List.mem_cons_of_mem _ hf), (List.nodup_cons.mp h.nodup).2⟩

/-- An edge of the first frame was shown. -/
theorem Underway.advance (h : Underway g ((v, (w, i) :: edges) :: frames) visited) :
    Underway g ((v, edges) :: frames) visited := by
  refine ⟨fun frame hframe => ?_, fun frame hframe => ?_, h.nodup⟩
  · rcases List.mem_cons.mp hframe with rfl | hframe
    · exact (List.suffix_cons _ _).trans (h.suffix _ List.mem_cons_self)
    · exact h.suffix frame (List.mem_cons_of_mem _ hframe)
  · rcases List.mem_cons.mp hframe with rfl | hframe
    · exact h.reached (v, (w, i) :: edges) List.mem_cons_self
    · exact h.reached frame (List.mem_cons_of_mem _ hframe)

/-- A node is reached. -/
theorem Underway.push (h : Underway g frames visited) (hw : visited[w]? = some false) :
    Underway g (frameOf g w :: frames) (visited.setIfInBounds w true) := by
  have hlt : w < visited.size := (Array.getElem?_eq_some_iff.mp hw).1
  have hne : ∀ frame ∈ frames, w ≠ frame.1 := by
    rintro frame hframe rfl
    simp [h.reached frame hframe] at hw
  refine ⟨fun frame hframe => ?_, fun frame hframe => ?_, ?_⟩
  · rcases List.mem_cons.mp hframe with rfl | hframe
    · exact List.suffix_refl _
    · exact h.suffix frame hframe
  · rcases List.mem_cons.mp hframe with rfl | hframe
    · simp [frameOf, hlt]
    · simpa [hne frame hframe] using h.reached frame hframe
  · rw [List.map_cons, List.nodup_cons]
    refine ⟨fun hmem => ?_, h.nodup⟩
    obtain ⟨frame, hframe, heq⟩ := List.mem_map.mp hmem
    exact hne frame hframe heq.symm

/-- The target of the next edge. -/
theorem Underway.target (h : Underway g ((v, (w, i) :: edges) :: frames) visited) :
    (g.targets v)[i]? = some w :=
  List.mem_zipIdx_iff_getElem?.mp ((h.suffix _ List.mem_cons_self).mem List.mem_cons_self)

/-- The next edge comes before all others of its node. -/
theorem Underway.first (h : Underway g ((v, (w, i) :: edges) :: frames) visited) {e : EdgeId}
    (he : e ∈ ((v, edges) :: frames).flatMap pending) (hv : v = e.node) : i < e.edge := by
  rw [List.flatMap_cons, List.mem_append] at he
  rcases he with he | he
  · obtain ⟨edge, hedge, rfl⟩ := List.mem_map.mp he
    have hsorted : (g.targets v).zipIdx.Pairwise fun a b => a.2 < b.2 := by
      rw [← List.pairwise_map, List.zipIdx_map_snd]
      exact List.pairwise_lt_range'
    have hrest := hsorted.sublist (h.suffix _ List.mem_cons_self).sublist
    exact (List.pairwise_cons.mp hrest).1 edge hedge
  · -- the other frames belong to other nodes
    obtain ⟨frame, hframe, he⟩ := List.mem_flatMap.mp he
    refine absurd ?_ (List.nodup_cons.mp h.nodup).1
    exact List.mem_map.mpr ⟨frame, hframe, (node_of_mem_pending he).symm.trans hv.symm⟩

/-! ### What a walk does -/

/-- What going on with a walk does: it reaches the nodes `nodes` and shows the edges `new`. -/
structure Toured (g : Digraph) (inside : Nat → Bool) (frames : List Frame)
    (visited visited' : Array Bool) (nodes : List Nat) (new : List EdgeId) : Prop where
  /-- There is a mark for each node as before. -/
  size_eq : visited'.size = visited.size
  /-- The nodes reached are those from before and the new ones. -/
  reached_iff : ∀ v : Nat, visited'[v]? = some true ↔ visited[v]? = some true ∨ v ∈ nodes
  /-- No node is reached twice. -/
  nodup : nodes.Nodup
  /-- The new nodes were not reached before, and are inside. -/
  fresh : ∀ v ∈ nodes, visited[v]? = some false ∧ inside v = true
  /-- What was left in the frames is shown, and all out-edges of the new nodes. -/
  perm : new.Perm (frames.flatMap pending ++ nodes.flatMap g.edgesFrom)
  /-- The edges of each node come by position. -/
  inOrder : InOrder new
  /-- The ends of the edges shown are reached, if they are inside. -/
  closed : ∀ e ∈ new, ∀ w, (g.targets e.node)[e.edge]? = some w → w < visited.size →
    inside w = true → visited'[w]? = some true

theorem toured_nil : Toured g inside [] visited visited [] [] := by
  refine ⟨rfl, ?_, List.nodup_nil, ?_, .refl _, List.Pairwise.nil, ?_⟩ <;> simp

/-- A frame with nothing left is done. -/
theorem Toured.skip (h : Toured g inside frames visited visited' nodes new) :
    Toured g inside ((v, []) :: frames) visited visited' nodes new :=
  { h with perm := h.perm }

/-- The first edge comes before the rest of what the walk shows. -/
theorem Underway.inOrder_cons (hwalk : Underway g ((v, (w, i) :: edges) :: frames) visited)
    (hnew : InOrder new) (hfresh : ∀ x ∈ nodes, visited[x]? = some false)
    (hperm : new.Perm (((v, edges) :: frames).flatMap pending ++ nodes.flatMap g.edgesFrom)) :
    InOrder (⟨v, i⟩ :: new) := by
  refine List.pairwise_cons.mpr ⟨fun e he hv => ?_, hnew⟩
  rcases List.mem_append.mp (hperm.mem_iff.mp he) with he | he
  · exact hwalk.first he hv
  · -- the walk has reached `v` already
    obtain ⟨x, hx, he⟩ := List.mem_flatMap.mp he
    obtain rfl : v = x := hv.trans (Digraph.mem_edgesFrom.mp he).1
    have hunreached := hfresh v hx
    rw [hwalk.reached _ List.mem_cons_self] at hunreached
    simp at hunreached

/-- An edge is shown whose end the walk does not enter. -/
theorem Toured.pass (hwalk : Underway g ((v, (w, i) :: edges) :: frames) visited)
    (hw : w < visited.size → inside w = true → visited[w]? = some true)
    (h : Toured g inside ((v, edges) :: frames) visited visited' nodes new) :
    Toured g inside ((v, (w, i) :: edges) :: frames) visited visited' nodes (⟨v, i⟩ :: new) where
  size_eq := h.size_eq
  reached_iff := h.reached_iff
  nodup := h.nodup
  fresh := h.fresh
  perm := h.perm.cons ⟨v, i⟩
  inOrder := hwalk.inOrder_cons h.inOrder (fun x hx => (h.fresh x hx).1) h.perm
  closed e he x hx hlt hinside := by
    rcases List.mem_cons.mp he with rfl | he
    · obtain rfl : w = x := Option.some.inj (hwalk.target.symm.trans hx)
      exact (h.reached_iff w).mpr (.inl (hw hlt hinside))
    · exact h.closed e he x hx hlt hinside

/-- An edge is shown whose end the walk enters. -/
theorem Toured.enter (hwalk : Underway g ((v, (w, i) :: edges) :: frames) visited)
    (hw : visited[w]? = some false) (hinside : inside w = true)
    (h : Toured g inside (frameOf g w :: (v, edges) :: frames) (visited.setIfInBounds w true)
      visited' nodes new) :
    Toured g inside ((v, (w, i) :: edges) :: frames) visited visited' (w :: nodes)
      (⟨v, i⟩ :: new) := by
  have hlt : w < visited.size := (Array.getElem?_eq_some_iff.mp hw).1
  have hmark : ∀ x, w ≠ x → (visited.setIfInBounds w true)[x]? = visited[x]? := by
    intro x hx
    simp [hx]
  have hself : (visited.setIfInBounds w true)[w]? = some true := by simp [hlt]
  have hnot : w ∉ nodes := fun hmem => by simpa [hself] using (h.fresh w hmem).1
  have hfresh : ∀ x ∈ w :: nodes, visited[x]? = some false ∧ inside x = true := by
    intro x hx
    rcases List.mem_cons.mp hx with rfl | hx
    · exact ⟨hw, hinside⟩
    · rw [← hmark x fun heq => hnot (heq ▸ hx)]
      exact h.fresh x hx
  -- all out-edges of `w` are still to be shown
  have hperm : new.Perm
      (((v, edges) :: frames).flatMap pending ++ (w :: nodes).flatMap g.edgesFrom) := by
    refine h.perm.trans ?_
    rw [List.flatMap_cons, pending_frameOf, List.flatMap_cons, List.append_assoc]
    exact List.perm_append_comm_assoc _ _ _
  refine ⟨by simpa using h.size_eq, fun x => ?_, List.nodup_cons.mpr ⟨hnot, h.nodup⟩, hfresh,
    hperm.cons ⟨v, i⟩,
    hwalk.inOrder_cons h.inOrder (fun x hx => (hfresh x hx).1) hperm, ?closed⟩
  · rw [h.reached_iff, List.mem_cons]
    by_cases hx : w = x
    · subst hx
      simp [hself]
    · rw [hmark x hx]
      simp [Ne.symm hx]
  case closed =>
    intro e he x hx hxlt hxinside
    rcases List.mem_cons.mp he with rfl | he
    · obtain rfl : w = x := Option.some.inj (hwalk.target.symm.trans hx)
      exact (h.reached_iff w).mpr (.inl hself)
    · exact h.closed e he x hx (by simpa using hxlt) hxinside

/-- The walk does what `Toured` says. -/
theorem exists_toured (inside : Nat → Bool) (shown : List EdgeId)
    (hwalk : Underway g frames visited) :
    ∃ visited' nodes new,
      walkFrames g inside frames visited shown = (visited', new.reverse ++ shown) ∧
        Toured g inside frames visited visited' nodes new := by
  induction frames, visited, shown using walkFrames.induct g inside with
  | case1 visited shown => exact ⟨visited, [], [], by simp [walkFrames], toured_nil⟩
  | case2 v frames visited shown ih =>
    obtain ⟨visited', nodes, new, hrun, htoured⟩ := ih hwalk.pop
    exact ⟨visited', nodes, new, by rw [walkFrames, hrun], htoured.skip⟩
  | case3 v w i edges frames visited shown hw hinside ih =>
    obtain ⟨visited', nodes, new, hrun, htoured⟩ := ih (hwalk.advance.push hw)
    refine ⟨visited', w :: nodes, ⟨v, i⟩ :: new, ?_, htoured.enter hwalk hw hinside⟩
    rw [walkFrames]
    split <;> simp_all
  | case4 v w i edges frames visited shown hw hinside ih =>
    obtain ⟨visited', nodes, new, hrun, htoured⟩ := ih hwalk.advance
    refine ⟨visited', nodes, ⟨v, i⟩ :: new, ?_,
      htoured.pass hwalk fun _ hinside' => absurd hinside' hinside⟩
    rw [walkFrames]
    split <;> simp_all
  | case5 v w i edges frames visited shown hw ih =>
    obtain ⟨visited', nodes, new, hrun, htoured⟩ := ih hwalk.advance
    refine ⟨visited', nodes, ⟨v, i⟩ :: new, ?_, htoured.pass hwalk fun hlt _ => ?_⟩
    · rw [walkFrames]
      split <;> simp_all
    · cases hmark : visited[w] with
      | true => simp [hlt, hmark]
      | false => exact absurd (by simp [hlt, hmark]) hw

/-! ### One component -/

/-- The nodes that a walk of a component reaches are all of it. -/
theorem Toured.covers (hg : g.Closed) {c start : Nat}
    (hstart : g.componentsOf.componentOf[start]? = some c)
    (h : Toured g (fun v => g.componentsOf.componentOf[v]? == some c) [frameOf g start] visited
      visited' nodes new)
    (hvisited : ∀ v, g.componentsOf.componentOf[v]? = some c → visited[v]? = some true → v = start)
    (hsize : visited.size = g.order) (hself : visited[start]? = some true)
    (hv : g.componentsOf.componentOf[v]? = some c) : v ∈ start :: nodes := by
  have hreached : ∀ x, g.componentsOf.componentOf[x]? = some c → visited'[x]? = some true →
      x ∈ start :: nodes := by
    intro x hx hmark
    rcases (h.reached_iff x).mp hmark with hold | hnew
    · exact List.mem_cons.mpr (.inl (hvisited x hx hold))
    · exact List.mem_cons_of_mem start hnew
  have hlt : start < g.order := hsize ▸ (Array.getElem?_eq_some_iff.mp hself).1
  have hpath : g.Reaches start v := ((Digraph.componentOf_eq_iff_linked hg hstart hv).mp rfl).1
  refine hreached v hv ?_
  -- along a path from the start to a node of the component, all nodes are in the component
  induction hpath with
  | refl => exact (h.reached_iff start).mpr (.inl hself)
  | @tail x y hpath hstep ih =>
    have hback : g.Reaches y start := ((Digraph.componentOf_eq_iff_linked hg hstart hv).mp rfl).2
    have hlink : g.Linked start x := ⟨hpath, .head hstep hback⟩
    obtain ⟨k, hk⟩ := Digraph.exists_componentOf hg (hg.reaches_lt hlt hpath)
    obtain rfl := (Digraph.componentOf_eq_iff_linked hg hstart hk).mpr hlink
    have hx := hreached x hk (ih hk)
    obtain ⟨i, hi⟩ := List.mem_iff_getElem?.mp hstep
    -- all out-edges of `x` were shown, among them the one to `y`
    have hshown : (⟨x, i⟩ : EdgeId) ∈ new := by
      refine h.perm.mem_iff.mpr ?_
      have hfrom : (⟨x, i⟩ : EdgeId) ∈ g.edgesFrom x :=
        Digraph.mem_edgesFrom.mpr ⟨rfl, (List.getElem?_eq_some_iff.mp hi).1⟩
      rw [List.flatMap_singleton, pending_frameOf, ← List.flatMap_cons]
      exact List.mem_flatMap.mpr ⟨x, hx, hfrom⟩
    have hylt : y < visited.size := hsize ▸ hg.reaches_lt hlt (hpath.tail hstep)
    exact h.closed _ hshown y hi hylt (by simpa using hv)

/-- A component is walked once and in full. -/
theorem componentWalk_perm (hg : g.Closed) {c start : Nat} {members : List Nat}
    (hmembers : g.componentsOf.members[c]? = some members) (hstart : start ∈ members)
    (hsize : visited.size = g.order)
    (hfresh : ∀ v ∈ members, visited[v]? = some false) :
    ∃ visited' new, componentWalk g g.componentsOf c start visited = (visited', new) ∧
      new.Perm (members.flatMap g.edgesFrom) ∧ InOrder new ∧ visited'.size = g.order ∧
      ∀ v : Nat, visited'[v]? = some true ↔ visited[v]? = some true ∨ v ∈ members := by
  have hmem := (Digraph.componentsOf_coherent hg).mem_iff c members hmembers
  have hlt : start < visited.size := (Array.getElem?_eq_some_iff.mp (hfresh start hstart)).1
  have hmark : ∀ v, (visited.setIfInBounds start true)[v]? =
      if start = v then some true else visited[v]? := by
    intro v
    simp [Array.getElem?_setIfInBounds, hlt]
  have hwalk : Underway g [frameOf g start] (visited.setIfInBounds start true) :=
    Underway.push ⟨by simp, by simp, List.nodup_nil⟩ (hfresh start hstart)
  obtain ⟨visited', nodes, new, hrun, htoured⟩ :=
    exists_toured (fun v => g.componentsOf.componentOf[v]? == some c) [] hwalk
  have hnodes : (start :: nodes).Perm members := by
    have hnot : start ∉ nodes := fun hself => by
      simpa [hmark] using (htoured.fresh start hself).1
    have hsorted := (Digraph.componentsOf_coherent hg).sorted members
      (Array.mem_of_getElem? hmembers)
    rw [List.perm_ext_iff_of_nodup (List.nodup_cons.mpr ⟨hnot, htoured.nodup⟩)
      (hsorted.imp Nat.ne_of_lt)]
    intro v
    constructor
    · intro hv
      rcases List.mem_cons.mp hv with rfl | hv
      · exact hstart
      · exact (hmem v).mpr (by simpa using (htoured.fresh v hv).2)
    · intro hv
      refine htoured.covers hg ((hmem start).mp hstart) (fun x hx hold => ?_) (by simpa using hsize)
        (by simp [hmark]) ((hmem v).mp hv)
      rw [hmark] at hold
      split at hold
      · next heq => exact heq.symm
      · simp [hfresh x ((hmem x).mpr hx)] at hold
  refine ⟨visited', new, by simp [componentWalk, hrun], ?_, htoured.inOrder,
    by simpa [hsize] using htoured.size_eq, fun v => ?_⟩
  · refine htoured.perm.trans ?_
    rw [List.flatMap_singleton, pending_frameOf, ← List.flatMap_cons]
    exact hnodes.flatMap_right _
  · rw [htoured.reached_iff, ← hnodes.mem_iff, List.mem_cons, hmark]
    by_cases hv : start = v
    · simp [hv]
    · simp [hv, Ne.symm hv]

/-! ### All components -/

theorem pickStart_mem (latest : Array (Option Nat)) (first : Nat) (others : List Nat) :
    pickStart latest first others ∈ first :: others := by
  induction others generalizing first with
  | nil => simp [pickStart]
  | cons m others ih =>
    change pickStart latest (if _ then m else first) others ∈ _
    split
    · exact List.mem_cons_of_mem first (ih m)
    · rcases List.mem_cons.mp (ih first) with heq | hmem
      · rw [heq]
        exact List.mem_cons_self
      · exact List.mem_cons_of_mem first (List.mem_cons_of_mem m hmem)

/-- The components of the sources never go back. -/
def Rising (comps : Components) (edges : List EdgeId) : Prop :=
  edges.Pairwise fun d e => ∃ j k, comps.componentOf[d.node]? = some j ∧
    comps.componentOf[e.node]? = some k ∧ j ≤ k

/-- The components before `c` were walked, and nothing else was. -/
structure Behind (g : Digraph) (c : Nat) (visited : Array Bool) : Prop where
  /-- There is a mark for each node. -/
  size_eq : visited.size = g.order
  /-- The nodes of the components before are marked. -/
  visited_iff : ∀ v : Nat, visited[v]? = some true ↔
    ∃ k < c, g.componentsOf.componentOf[v]? = some k

theorem behind_replicate (g : Digraph) : Behind g 0 (Array.replicate g.order false) :=
  ⟨by simp, by simp [Array.getElem?_replicate]⟩

/-- The nodes of the next component were not reached yet. -/
theorem Behind.fresh (h : Behind g c visited) (hg : g.Closed)
    (hv : g.componentsOf.componentOf[v]? = some c) : visited[v]? = some false := by
  have hlt : v < visited.size := by
    rw [h.size_eq]
    exact Digraph.lt_order_of_componentOf hg hv
  cases hmark : visited[v] with
  | false => simp [hlt, hmark]
  | true =>
    -- a node that was reached is in a component before
    obtain ⟨k, hk, hvk⟩ := (h.visited_iff v).mp (by simp [hlt, hmark])
    rw [hv] at hvk
    exact absurd (Option.some.inj hvk) (Nat.ne_of_gt hk)

/-- After the walk of a component, the next one comes. -/
theorem Behind.next (h : Behind g c visited) (hsize : visited'.size = g.order)
    (hvisited : ∀ v : Nat, visited'[v]? = some true ↔
      visited[v]? = some true ∨ g.componentsOf.componentOf[v]? = some c) :
    Behind g (c + 1) visited' := by
  refine ⟨hsize, fun v => ?_⟩
  rw [hvisited, h.visited_iff]
  simp only [Nat.lt_succ_iff_lt_or_eq, or_and_right, exists_or, exists_eq_left]

/-- The edges of the components `groups` in order: each out-edge of a member once, the components
rising and the edges of each node by position. -/
structure Arranged (g : Digraph) (groups : List (List Nat)) (edges : List EdgeId) : Prop where
  /-- The edges are the out-edges of the members. -/
  perm : edges.Perm (groups.flatten.flatMap g.edgesFrom)
  /-- The components rise. -/
  rising : Rising g.componentsOf edges
  /-- The edges of a node come by position. -/
  inOrder : InOrder edges

/-- The source of an edge of a later component is in a later component. -/
theorem Arranged.exists_componentOf {later : List EdgeId} (hg : g.Closed)
    (h : Arranged g (g.componentsOf.members.toList.drop c) later) {e : EdgeId} (he : e ∈ later) :
    ∃ k, c ≤ k ∧ g.componentsOf.componentOf[e.node]? = some k := by
  obtain ⟨v, hv, he⟩ := List.mem_flatMap.mp (h.perm.mem_iff.mp he)
  obtain ⟨members, hmembers, hv⟩ := List.mem_flatten.mp hv
  obtain ⟨i, hi⟩ := List.mem_iff_getElem?.mp hmembers
  rw [List.getElem?_drop, Array.getElem?_toList] at hi
  rw [(Digraph.mem_edgesFrom.mp he).1]
  exact ⟨c + i, Nat.le_add_right c i, ((Digraph.componentsOf_coherent hg).mem_iff _ _ hi v).mp hv⟩

/-- The edges of a component come before those of all later ones. -/
theorem Arranged.cons {members : List Nat} {later : List EdgeId} (hg : g.Closed)
    (hmembers : g.componentsOf.members[c]? = some members)
    (hperm : new.Perm (members.flatMap g.edgesFrom)) (hnew : InOrder new)
    (h : Arranged g (g.componentsOf.members.toList.drop (c + 1)) later) :
    Arranged g (members :: g.componentsOf.members.toList.drop (c + 1)) (new ++ later) := by
  have hhere : ∀ e ∈ new, g.componentsOf.componentOf[e.node]? = some c := by
    intro e he
    obtain ⟨v, hv, he⟩ := List.mem_flatMap.mp (hperm.mem_iff.mp he)
    rw [(Digraph.mem_edgesFrom.mp he).1]
    exact ((Digraph.componentsOf_coherent hg).mem_iff c members hmembers v).mp hv
  constructor
  · rw [List.flatten_cons, List.flatMap_append]
    exact hperm.append h.perm
  · refine List.pairwise_append.mpr ⟨?_, h.rising, fun d hd e he => ?_⟩
    · refine List.pairwise_of_forall_mem_list fun d hd e he => ?_
      exact ⟨c, c, hhere d hd, hhere e he, Nat.le_refl c⟩
    · obtain ⟨k, hk, he⟩ := h.exists_componentOf hg he
      exact ⟨c, k, hhere d hd, he, Nat.le_of_succ_le hk⟩
  · refine List.pairwise_append.mpr ⟨hnew, h.inOrder, fun d hd e he hnode => ?_⟩
    -- edges of different components have different sources
    obtain ⟨k, hk, he⟩ := h.exists_componentOf hg he
    rw [← hnode, hhere d hd] at he
    exact absurd (Option.some.inj he) (Nat.ne_of_lt hk)

theorem getElem?_and_drop_of_drop_eq_cons {comps : Components} {members : List Nat}
    {rest : List (List Nat)} (h : comps.members.toList.drop c = members :: rest) :
    comps.members[c]? = some members ∧ comps.members.toList.drop (c + 1) = rest := by
  constructor
  · rw [← Array.getElem?_toList, ← List.head?_drop, h]
    rfl
  · rw [← List.tail_drop, h]
    rfl

/-- The components from some number on are walked one after another, each once and in full. -/
theorem arranged_walksFrom (hg : g.Closed) (rest : List (List Nat)) (c : Nat)
    (visited : Array Bool) (latest : Array (Option Nat))
    (hrest : g.componentsOf.members.toList.drop c = rest) (hvisited : Behind g c visited) :
    Arranged g rest
      ((walksFrom g g.componentsOf c rest visited latest).flatMap Walk.edges) := by
  have hcoherent := Digraph.componentsOf_coherent hg
  induction rest generalizing c visited latest with
  | nil => exact ⟨.refl _, List.Pairwise.nil, List.Pairwise.nil⟩
  | cons members rest ih =>
    obtain ⟨hc, hrest'⟩ := getElem?_and_drop_of_drop_eq_cons hrest
    cases members with
    | nil => exact absurd rfl (hcoherent.ne_nil (Array.mem_of_getElem? hc))
    | cons first others =>
      have hmem := hcoherent.mem_iff c _ hc
      obtain ⟨visited', new, hwalk, hperm, hnew, hsize, hmarks⟩ := componentWalk_perm hg hc
        (pickStart_mem latest first others) hvisited.size_eq
        (fun v hv => hvisited.fresh hg ((hmem v).mp hv))
      have hnext : Behind g (c + 1) visited' := by
        refine hvisited.next hsize fun v => ?_
        rw [hmarks, hmem]
      have hlater := ih (c + 1) visited'
        (noteLatest g g.componentsOf c (first :: others) latest) hrest' hnext
      simp only [walksFrom, hwalk, List.flatMap_cons]
      rw [← hrest'] at hlater ⊢
      exact .cons hg hc hperm hnew hlater

/-- The walks show every edge once, component by component, and the edges of a node by position. -/
theorem walks_perm (hg : g.Closed) :
    ((walks g g.componentsOf).flatMap Walk.edges).Perm
        ((List.range g.order).flatMap g.edgesFrom) ∧
      Rising g.componentsOf ((walks g g.componentsOf).flatMap Walk.edges) ∧
      InOrder ((walks g g.componentsOf).flatMap Walk.edges) := by
  have harranged := arranged_walksFrom hg g.componentsOf.members.toList 0 _
    (Array.replicate g.order none) rfl (behind_replicate g)
  refine ⟨harranged.perm.trans (List.Perm.flatMap_right _ ?_), harranged.rising, harranged.inOrder⟩
  rw [← Digraph.size_componentOf hg]
  exact (Digraph.componentsOf_coherent hg).flatten_perm

end LockOrder.Report
