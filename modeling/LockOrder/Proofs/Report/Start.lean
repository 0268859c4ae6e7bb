import LockOrder.Proofs.Report.Text
import Mathlib.Data.List.MinMax

/-!
# Where walks start

The walk of a component starts where the walk before left off, if it can: at the member with the
latest component among its predecessors outside. The report does not look for predecessors. It notes
each component as the latest one for the targets of its edges, when the component was walked.
Components are walked in topological order, so all predecessors of a member outside its component
were walked before, and what was noted is the maximum over all edges of the graph.

## Main definitions

* `Report.entrances`, `Report.latestEntrance` — the components from which edges lead to a node
* `Report.IsStart` — the member that a walk has to start with
* `Report.Noted` — what was noted when the components before a number were walked
* `Report.WellStarted` — a walk that starts where it has to

## Main results

* `Report.Noted.next` — what was noted after one more component
* `Report.pickStart_isFirst` — the first of the members with the latest entrance is taken
* `Report.walksFrom_wellStarted` — so each walk from some component on starts where it has to
* `Report.textReport_starts_latest` — the text report walks all components so, and logs it
-/

namespace LockOrder.Report

variable {g : Digraph} {comps : Components} {c k v : Nat} {latest : Array (Option Nat)}

/-! ### Entrances -/

/-- The components of the sources of the edges into a node from other components. -/
def entrances (g : Digraph) (comps : Components) (v : Nat) : List Nat :=
  g.arcs.filterMap fun arc =>
    if arc.2 = v ∧ comps.componentOf[arc.1]? ≠ comps.componentOf[v]? then comps.componentOf[arc.1]?
    else none

/-- The latest component from which an edge leads to a node; a node without such an edge comes below
all others. -/
def latestEntrance (g : Digraph) (comps : Components) (v : Nat) : WithBot Nat :=
  (entrances g comps v).maximum

/-- The member of a component that its walk has to start with: of the members with the latest
entrance the lowest one. -/
structure IsStart (g : Digraph) (comps : Components) (c start : Nat) : Prop where
  /-- It is a member of the component. -/
  mem : comps.componentOf[start]? = some c
  /-- No member has a later entrance. -/
  latest : ∀ m : Nat, comps.componentOf[m]? = some c →
    latestEntrance g comps m ≤ latestEntrance g comps start
  /-- Of the members with the same entrance it is the lowest one. -/
  lowest : ∀ m : Nat, comps.componentOf[m]? = some c →
    latestEntrance g comps m = latestEntrance g comps start → start ≤ m

theorem mem_entrances : k ∈ entrances g comps v ↔
    comps.componentOf[v]? ≠ some k ∧
      ∃ u < g.order, g.Step u v ∧ comps.componentOf[u]? = some k := by
  simp only [entrances, List.mem_filterMap, Prod.exists, Digraph.mem_arcs]
  constructor
  · rintro ⟨u, w, ⟨hu, hstep⟩, hk⟩
    split at hk
    · next h =>
      obtain ⟨rfl, hne⟩ := h
      exact ⟨fun heq => hne (hk.trans heq.symm), u, hu, hstep, hk⟩
    · cases hk
  · rintro ⟨hne, u, hu, hstep, hk⟩
    exact ⟨u, v, ⟨hu, hstep⟩, by rw [if_pos ⟨rfl, fun heq => hne (heq.symm.trans hk)⟩, hk]⟩

/-- Edges from other components come from earlier ones. -/
theorem lt_of_mem_entrances (hg : g.Closed) (hv : g.componentsOf.componentOf[v]? = some c)
    (hk : k ∈ entrances g g.componentsOf v) : k < c := by
  obtain ⟨hne, u, _, hstep, hu⟩ := mem_entrances.mp hk
  refine Nat.lt_of_le_of_ne (Digraph.componentOf_le_of_reaches hg (.single hstep) hu hv) ?_
  rintro rfl
  exact hne hv

/-! ### Notes -/

/-- A note as the latest component. -/
def noteRank : Option Nat → WithBot Nat
  | none => ⊥
  | some k => WithBot.some k

theorem comesBefore_iff (a b : Option Nat) : comesBefore a b = true ↔ noteRank a < noteRank b := by
  cases a <;> cases b <;> simp [comesBefore, noteRank]

/-- Every target outside is noted with the component, and nothing else changes. -/
theorem getElem?_noteLatest (members : List Nat) (hv : v < latest.size) :
    (noteLatest g comps c members latest)[v]? =
      if v ∈ members.flatMap g.targets ∧ comps.componentOf[v]? ≠ some c then some (some c)
      else latest[v]? := by
  unfold noteLatest
  induction members.flatMap g.targets generalizing latest with
  | nil => simp
  | cons t targets ih =>
    rw [List.foldl_cons]
    by_cases ht : comps.componentOf[t]? = some c
    · -- the target is inside, so it is not the node if that is noted
      rw [if_pos (by simpa using ht), ih hv]
      by_cases hvt : v = t
      · simp [hvt, ht]
      · simp [hvt]
    · rw [if_neg (by simpa using ht), ih (by simpa using hv)]
      by_cases hvt : t = v
      · subst hvt
        simp [ht, hv]
      · simp [hvt, Ne.symm hvt]

theorem size_noteLatest (members : List Nat) :
    (noteLatest g comps c members latest).size = latest.size := by
  unfold noteLatest
  induction members.flatMap g.targets generalizing latest with
  | nil => rfl
  | cons t targets ih =>
    rw [List.foldl_cons, ih]
    split <;> simp

/-- When the components before `c` were walked, each node has a note of the latest one of them from
which an edge leads to it. -/
structure Noted (g : Digraph) (c : Nat) (latest : Array (Option Nat)) : Prop where
  /-- There is a note for each node. -/
  size_eq : latest.size = g.order
  /-- The note is the latest entrance before `c`. -/
  rank_eq : ∀ v < g.order, noteRank latest[v]?.join =
    ((entrances g g.componentsOf v).filter (· < c)).maximum

theorem noted_replicate (g : Digraph) : Noted g 0 (Array.replicate g.order none) := by
  refine ⟨by simp, fun v hv => ?_⟩
  simp [hv, noteRank]

/-- After the walk of a component, it is the latest one for the targets of its edges. -/
theorem Noted.next (hg : g.Closed) {members : List Nat} (h : Noted g c latest)
    (hmembers : g.componentsOf.members[c]? = some members) :
    Noted g (c + 1) (noteLatest g g.componentsOf c members latest) := by
  refine ⟨(size_noteLatest members).trans h.size_eq, fun v hv => ?_⟩
  have hmem := (Digraph.componentsOf_coherent hg).mem_iff c members hmembers
  -- the node is noted exactly if the component is one of its entrances
  have hentrance : (v ∈ members.flatMap g.targets ∧ g.componentsOf.componentOf[v]? ≠ some c) ↔
      c ∈ entrances g g.componentsOf v := by
    rw [mem_entrances, and_comm, List.mem_flatMap]
    refine and_congr_right fun _ => exists_congr fun u => ?_
    rw [hmem]
    constructor
    · rintro ⟨hu, hstep⟩
      exact ⟨Digraph.lt_order_of_componentOf hg hu, hstep, hu⟩
    · rintro ⟨_, hstep, hu⟩
      exact ⟨hu, hstep⟩
  rw [getElem?_noteLatest members (h.size_eq ▸ hv)]
  by_cases hc : c ∈ entrances g g.componentsOf v
  · rw [if_pos (hentrance.mpr hc)]
    refine (List.maximum_eq_coe_iff.mpr ⟨?_, fun k hk => ?_⟩).symm
    · simpa using hc
    · have hlt := (List.mem_filter.mp hk).2
      exact Nat.le_of_lt_succ (of_decide_eq_true hlt)
  · rw [if_neg (mt hentrance.mp hc), h.rank_eq v hv]
    congr 1
    refine List.filter_congr fun k hk => ?_
    have hne : k ≠ c := fun heq => hc (heq ▸ hk)
    simp only [decide_eq_decide]
    omega

/-- For a member of the next component, the note is the latest entrance of all. -/
theorem Noted.rank_eq_latestEntrance (hg : g.Closed) (h : Noted g c latest)
    (hv : g.componentsOf.componentOf[v]? = some c) :
    noteRank latest[v]?.join = latestEntrance g g.componentsOf v := by
  rw [h.rank_eq v (Digraph.lt_order_of_componentOf hg hv), latestEntrance,
    List.filter_eq_self.mpr]
  intro k hk
  exact decide_eq_true (lt_of_mem_entrances hg hv hk)

/-! ### The choice of the start -/

/-- The first of the members with the highest note is taken. -/
theorem pickStart_isFirst (latest : Array (Option Nat)) (first : Nat) (others : List Nat)
    (hsorted : (first :: others).Pairwise (· < ·)) :
    ∀ m ∈ first :: others,
      noteRank latest[m]?.join ≤ noteRank latest[pickStart latest first others]?.join ∧
        (noteRank latest[m]?.join = noteRank latest[pickStart latest first others]?.join →
          pickStart latest first others ≤ m) := by
  induction others generalizing first with
  | nil => simp [pickStart]
  | cons next others ih =>
    have hstep : pickStart latest first (next :: others) =
        pickStart latest (if comesBefore latest[first]?.join latest[next]?.join then next
          else first) others := rfl
    rw [hstep]
    obtain ⟨hfirst, hrest⟩ := List.pairwise_cons.mp hsorted
    by_cases hbefore : comesBefore latest[first]?.join latest[next]?.join = true
    · -- the first member has a lower note than the next one
      rw [if_pos hbefore]
      have hlt := (comesBefore_iff _ _).mp hbefore
      have hnext := ih next hrest
      intro m hm
      rcases List.mem_cons.mp hm with rfl | hm
      · have hlt' := hlt.trans_le (hnext next List.mem_cons_self).1
        exact ⟨hlt'.le, fun heq => absurd heq hlt'.ne⟩
      · exact hnext m hm
    · rw [if_neg hbefore]
      have hle := not_lt.mp (mt (comesBefore_iff _ _).mpr hbefore)
      have hkept := ih first (List.pairwise_cons.mpr
        ⟨fun m hm => hfirst m (List.mem_cons_of_mem _ hm), (List.pairwise_cons.mp hrest).2⟩)
      intro m hm
      rcases List.mem_cons.mp hm with rfl | hm
      · exact hkept m List.mem_cons_self
      · rcases List.mem_cons.mp hm with rfl | hm
        · -- the next member is higher, and its note is not
          obtain ⟨hbest, hlow⟩ := hkept first List.mem_cons_self
          refine ⟨hle.trans hbest, fun heq => ?_⟩
          exact (hlow (le_antisymm hbest (heq ▸ hle))).trans (hfirst m List.mem_cons_self).le
        · exact hkept m (List.mem_cons_of_mem _ hm)

/-- Of two members with the highest note the first is taken, and one without a note comes last. -/
example : pickStart #[none, some 0, some 2, some 2] 0 [1, 2, 3] = 2 := by decide

/-- The member with the highest note is the start, when the components before were walked. -/
theorem isStart_pickStart (hg : g.Closed) (h : Noted g c latest) {first : Nat} {others : List Nat}
    (hc : g.componentsOf.members[c]? = some (first :: others)) :
    IsStart g g.componentsOf c (pickStart latest first others) := by
  have hcoherent := Digraph.componentsOf_coherent hg
  have hmem := hcoherent.mem_iff c _ hc
  have hstart := (hmem _).mp (pickStart_mem latest first others)
  have hfirst := pickStart_isFirst latest first others
    (hcoherent.sorted _ (Array.mem_of_getElem? hc))
  refine ⟨hstart, fun m hm => ?_, fun m hm => ?_⟩
  all_goals
    rw [← h.rank_eq_latestEntrance hg hm, ← h.rank_eq_latestEntrance hg hstart]
  · exact (hfirst m ((hmem m).mpr hm)).1
  · exact (hfirst m ((hmem m).mpr hm)).2

/-! ### The walks -/

/-- A walk keeps what it has shown. -/
theorem suffix_walkFrames (g : Digraph) (inside : Nat → Bool) (frames : List Frame)
    (visited : Array Bool) (shown : List EdgeId) :
    shown <:+ (walkFrames g inside frames visited shown).2 := by
  fun_induction walkFrames g inside frames visited shown with
  | case1 visited shown => exact List.suffix_rfl
  | case2 v frames visited shown ih => exact ih
  | case3 v w i edges frames visited shown hw hinside ih => exact (List.suffix_cons _ _).trans ih
  | case4 v w i edges frames visited shown hw hinside ih => exact (List.suffix_cons _ _).trans ih
  | case5 v w i edges frames visited shown hw ih => exact (List.suffix_cons _ _).trans ih

/-- The walk of a component shows an edge of its start before all others. -/
theorem head?_componentWalk (start : Nat) (visited : Array Bool) :
    (componentWalk g comps c start visited).2.head? = (g.edgesFrom start).head? := by
  have hwalk : (componentWalk g comps c start visited).2 =
      (walkFrames g (fun v => comps.componentOf[v]? == some c) [frameOf g start]
        (visited.setIfInBounds start true) []).2.reverse := rfl
  rw [hwalk, List.head?_reverse, ← pending_frameOf, frameOf]
  cases (g.targets start).zipIdx with
  | nil => simp [walkFrames]
  | cons edge edges =>
    obtain ⟨w, i⟩ := edge
    -- whatever comes next, the first edge was shown
    have hshown : [⟨start, i⟩] <:+ (walkFrames g (fun v => comps.componentOf[v]? == some c)
        [(start, (w, i) :: edges)] (visited.setIfInBounds start true) []).2 := by
      rw [walkFrames]
      split
      · split <;> exact suffix_walkFrames ..
      · exact suffix_walkFrames ..
    obtain ⟨new, hnew⟩ := hshown
    rw [← hnew]
    simp

/-- A walk of a component that starts where it has to, and shows an edge of the start first. -/
structure WellStarted (g : Digraph) (comps : Components) (walk : Walk) : Prop where
  /-- The start is the right one. -/
  isStart : IsStart g comps walk.component walk.start
  /-- The first edge is the first one of the start. -/
  head?_edges : walk.edges.head? = (g.edgesFrom walk.start).head?
  /-- The size is that of the component. -/
  size_eq : (comps.members[walk.component]?).map List.length = some walk.size

/-- The components from some number on are walked in turn, and each walk starts where it has to. -/
theorem walksFrom_wellStarted (hg : g.Closed) (rest : List (List Nat)) (c : Nat)
    (visited : Array Bool) (latest : Array (Option Nat))
    (hrest : g.componentsOf.members.toList.drop c = rest) (hnoted : Noted g c latest) :
    (walksFrom g g.componentsOf c rest visited latest).map Walk.component =
        List.range' c rest.length ∧
      ∀ walk ∈ walksFrom g g.componentsOf c rest visited latest,
        WellStarted g g.componentsOf walk := by
  induction rest generalizing c visited latest with
  | nil => simp [walksFrom]
  | cons members rest ih =>
    obtain ⟨hc, hrest'⟩ := getElem?_and_drop_of_drop_eq_cons hrest
    cases members with
    | nil =>
      exact absurd rfl ((Digraph.componentsOf_coherent hg).ne_nil (Array.mem_of_getElem? hc))
    | cons first others =>
      obtain ⟨hcomponents, hwalks⟩ := ih (c + 1)
        (componentWalk g g.componentsOf c (pickStart latest first others) visited).1
        (noteLatest g g.componentsOf c (first :: others) latest) hrest' (hnoted.next hg hc)
      refine ⟨?_, List.forall_mem_cons.mpr ⟨?_, hwalks⟩⟩
      · rw [walksFrom, List.map_cons, hcomponents, List.length_cons, List.range'_succ]
      · exact ⟨isStart_pickStart hg hnoted hc, head?_componentWalk _ _, by simp [hc]⟩

/-- All components are walked in turn, and each walk starts where it has to. -/
theorem walks_wellStarted (hg : g.Closed) :
    (walks g g.componentsOf).map Walk.component = List.range g.componentsOf.size ∧
      ∀ walk ∈ walks g g.componentsOf, WellStarted g g.componentsOf walk := by
  have hwalks := walksFrom_wellStarted hg g.componentsOf.members.toList 0
    (Array.replicate g.order false) _ rfl (noted_replicate g)
  rwa [← List.range_eq_range', Array.length_toList] at hwalks

/-! ### The report -/

theorem events_block (settings : Settings) (g : Graph) (e : EdgeId) :
    Script.events (block settings g e) = [] := by
  have hpair : ∀ source target pair,
      Script.events (pairSteps settings g.table source target pair) = [] := by
    intro source target pair
    simp [pairSteps, stackStep, Script.events]
  unfold block
  cases edgeParts settings g e with
  | error f => rfl
  | ok parts =>
    simp only [edgeSteps, Script.events, Script.events_append, Script.events_flatMap, hpair]
    split <;> simp [Script.events]

/-- Numbers below one of a range stand before it. -/
theorem mem_of_append_cons_eq_range {before after : List Nat} {n : Nat}
    (h : List.range n = before ++ c :: after) (hk : k < c) : k ∈ before := by
  have hsorted : (before ++ c :: after).Pairwise (· < ·) := h ▸ List.pairwise_lt_range
  rw [List.pairwise_append, List.pairwise_cons] at hsorted
  have hc : c < n := by
    rw [← List.mem_range, h]
    exact List.mem_append_right _ List.mem_cons_self
  have hmem : k ∈ before ++ c :: after := h ▸ List.mem_range.mpr (hk.trans hc)
  rcases List.mem_append.mp hmem with hbefore | hafter
  · exact hbefore
  · rcases List.mem_cons.mp hafter with rfl | hafter
    · exact absurd hk (Nat.lt_irrefl k)
    · exact absurd (hk.trans (hsorted.2.1.1 k hafter)) (Nat.lt_irrefl k)

/-- What a walk logs when it starts. -/
def Walk.event (walk : Walk) : Event := .walkingComponent walk.component walk.size walk.start

/-- The report logs the start of each walk, and nothing else. -/
theorem events_flatMap_walkSteps (settings : Settings) (g : Graph) (ws : List Walk) :
    Script.events (ws.flatMap (walkSteps settings g)) = ws.map Walk.event := by
  have hwalk : ∀ walk, Script.events (walkSteps settings g walk) = [walk.event] := by
    intro walk
    simp [walkSteps, Script.events, Script.events_flatMap, events_block, Walk.event]
  simp only [Script.events_flatMap, hwalk, List.map_eq_flatMap]

/-- In the text report of a graph whose structure was checked, the components are walked in order,
and the start of each walk is logged. Every walk starts at the lowest one of the members whose
latest entrance is the latest of all, over all edges of the graph, where a member without an
entrance comes after those with one. Everything from which an edge leads into the component was
walked before. -/
theorem textReport_starts_latest (settings : Settings) (g : Graph) (hg : g.check = .ok ()) :
    ∃ comps walks, g.digraph.components = .ok comps ∧
      textReport settings g = walks.flatMap (walkSteps settings g) ∧
      ((textReport settings g).run none).1 = walks.map Walk.event ∧
      (∀ limit, ((textReport settings g).run limit).1 <+: walks.map Walk.event) ∧
      walks.map Walk.component = List.range comps.size ∧
      ∀ before walk after, walks = before ++ walk :: after →
        WellStarted g.digraph comps walk ∧
        ∀ m : Nat, comps.componentOf[m]? = some walk.component →
          ∀ k ∈ entrances g.digraph comps m, k ∈ before.map Walk.component := by
  have hsound := Graph.check_eq_ok_iff.mp hg
  have hclosed := hsound.digraph_closed
  have hreport : textReport settings g =
      (walks g.digraph g.digraph.componentsOf).flatMap (walkSteps settings g) := by
    rw [textReport, Digraph.components_eq_ok hclosed]
  have hevents := events_flatMap_walkSteps settings g (walks g.digraph g.digraph.componentsOf)
  rw [← hreport] at hevents
  obtain ⟨texts, _, htext⟩ := exists_text_textReport settings hsound
  obtain ⟨hcomponents, hwalks⟩ := walks_wellStarted hclosed
  refine ⟨_, _, Digraph.components_eq_ok hclosed, hreport, ?_, fun limit => ?_, hcomponents, ?_⟩
  · rw [Script.events_run (Script.run_none_of_text_eq_ok htext), hevents]
  · rw [← hevents]
    exact Script.events_run_isPrefix limit _
  · intro before walk after heq
    refine ⟨hwalks walk (heq ▸ by simp), fun m hm k hk => ?_⟩
    have hlt := lt_of_mem_entrances hclosed hm hk
    rw [heq, List.map_append, List.map_cons] at hcomponents
    exact mem_of_append_cons_eq_range hcomponents.symm hlt

/-- Two cycles and a node with edges into both. The second cycle is entered from the first one at
`c` and from the other node, which is walked before, at `d`. -/
theorem textReport_starts_latest_entered :
    let g : Graph := ⟨#["a", "b", "c", "d", "x"],
      #[[⟨[]⟩], [⟨[]⟩, ⟨[]⟩], [⟨[]⟩], [⟨[]⟩], [⟨[]⟩, ⟨[]⟩]],
      #[[1], [0, 2], [3], [2], [3, 0]], ⟨⟨#[]⟩, ⟨#[]⟩⟩⟩
    g.check = .ok () ∧
      ∃ comps walks, g.digraph.components = .ok comps ∧
        textReport {} g = walks.flatMap (walkSteps {} g) ∧
        ((textReport {} g).run none).1 = walks.map Walk.event ∧
        (∀ limit, ((textReport {} g).run limit).1 <+: walks.map Walk.event) ∧
        walks.map Walk.component = List.range comps.size ∧
        ∀ before walk after, walks = before ++ walk :: after →
          WellStarted g.digraph comps walk ∧
          ∀ m : Nat, comps.componentOf[m]? = some walk.component →
            ∀ k ∈ entrances g.digraph comps m, k ∈ before.map Walk.component := by
  intro g
  exact ⟨rfl, textReport_starts_latest {} g rfl⟩

end LockOrder.Report
