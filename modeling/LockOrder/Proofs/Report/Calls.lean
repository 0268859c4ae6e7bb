import LockOrder.Proofs.Report.CallGraph
import LockOrder.Proofs.Report.Text
import LockOrder.Proofs.Stack.Rendering

/-!
# The calls behind an edge

The drawing of the calls behind an edge is exact. It has a node for each key of a frame that is
drawn, numbered as the keys are first seen and labelled after the first frame of its key; it has an
arrow from one node to another exactly if a frame of the one stands directly outside a frame of the
other on some stack; and no arrow has an end that is not a node. What is drawn are the trimmed
stacks: without the outermost frame if that is in the function that every thread ends in, and with a
frame of their own if no frame is left.

What a drawing says is told here without the operations that write it: its lines are spelled out,
and so are the labels of its nodes.

## Main definitions

* `StackTable.InFunction` — the function that a frame is in
* `Report.Leaves`, `Report.Trims`, `Report.TrimsPair` — what trimming does
* `Grain.Joins`, `Grain.Labels` — which frames share a node, and what it is labelled with
* `CallGraph.keys`, `CallGraph.Shows` — the keys of the nodes, and the frames that they show
* `Report.RedArrow`, `Report.callGraphLines` — the lines of a drawing

## Main results

* `Report.trims_of_trimStack` — trimmed stacks
* `Grain.key_eq_key_iff`, `Grain.labels_of_label` — keys and labels of frames
* `CallGraph.getElem?_keys_iff` — the node of a frame is the one with its key
* `CallGraph.mem_calls` — the arrows between callers and callees
* `Report.exists_callGraph` — the drawing line by line
* `Report.edgeDot_draws_calls` — the drawing is exact
-/

namespace LockOrder

/-- A frame is in the function of the given name. -/
def StackTable.InFunction (table : StackTable) (pos : Pos) (name : String) : Prop :=
  ∃ file func row, pos = .resolved file func row ∧ table.funcs.strings[func]? = some name

/-- The name that is looked up for a frame is that of the function it is in, if there is one. -/
theorem StackTable.inFunction_iff {table : StackTable} {pos : Pos} {found : Option String}
    {name : String} (h : table.funcName? pos = .ok found) :
    table.InFunction pos name ↔ found = some name := by
  cases pos with
  | unresolved text =>
    obtain rfl := Except.ok.inj h
    simp [InFunction]
  | resolved file func row =>
    rw [funcName?] at h
    cases hget : table.funcs.get func with
    | error fault =>
      rw [hget] at h
      cases h
    | ok stored =>
      rw [hget] at h
      have hfound : some stored = found := Except.ok.inj h
      simp [InFunction, StringTable.strings_of_get hget, ← hfound]

namespace Report

variable {settings : Settings} {table : StackTable} {s s' : Stack} {p p' : StackPair}

/-! ### Trimmed stacks -/

/-- What is left of the frames of a stack, innermost first. The outermost frame goes if it is in the
function that every thread ends in, and no other frame does. -/
inductive Leaves (settings : Settings) (table : StackTable) : List Pos → List Pos → Prop where
  /-- There are no frames. -/
  | nothing : Leaves settings table [] []
  /-- The outermost frame is in the function that every thread ends in. -/
  | inner {inner : List Pos} {outer : Pos}
      (hexit : table.InFunction outer settings.exitFunction) :
      Leaves settings table (inner ++ [outer]) inner
  /-- The outermost frame is in another function, or in none that is known. -/
  | all {inner : List Pos} {outer : Pos}
      (hother : ¬ table.InFunction outer settings.exitFunction) :
      Leaves settings table (inner ++ [outer]) (inner ++ [outer])

/-- A stack as it is drawn: what is left of it, or a frame that says that nothing is. -/
inductive Trims (settings : Settings) (table : StackTable) (s : Stack) : Stack → Prop where
  /-- No frame is left. -/
  | missing (h : Leaves settings table s.frames []) :
      Trims settings table s ⟨[.unresolved settings.missingStack]⟩
  /-- Some frames are left. -/
  | shown {frames : List Pos} (h : Leaves settings table s.frames frames) (hne : frames ≠ []) :
      Trims settings table s ⟨frames⟩

/-- A pair of stacks as it is drawn. -/
structure TrimsPair (settings : Settings) (table : StackTable) (p p' : StackPair) : Prop where
  /-- The first stack is trimmed. -/
  first : Trims settings table p.first p'.first
  /-- The second stack is trimmed. -/
  second : Trims settings table p.second p'.second
  /-- The count stays. -/
  count : p'.count = p.count

theorem Trims.of_leaves {frames : List Pos} (h : Leaves settings table s.frames frames) :
    Trims settings table s
      ⟨if frames.isEmpty then [.unresolved settings.missingStack] else frames⟩ := by
  cases frames with
  | nil => exact .missing h
  | cons pos frames => exact .shown h (List.cons_ne_nil pos frames)

/-- Trimming does what `Trims` says. -/
theorem trims_of_trimStack (h : trimStack settings table s = .ok s') :
    Trims settings table s s' := by
  rw [trimStack] at h
  cases hlast : s.frames.getLast? with
  | none =>
    have hleaves : Leaves settings table s.frames [] := by
      rw [List.getLast?_eq_none_iff.mp hlast]
      exact .nothing
    -- the choice of the frame to show instead is the same on all paths, and is copied onto each
    simp only [hlast] at h
    obtain rfl := Except.ok.inj h
    exact Trims.of_leaves hleaves
  | some outer =>
    obtain ⟨inner, hframes⟩ := List.getLast?_eq_some_iff.mp hlast
    simp only [hlast] at h
    obtain ⟨name, hname, h⟩ := Outcome.bind_eq_ok_iff.mp h
    have hin : table.InFunction outer settings.exitFunction ↔
        name = some settings.exitFunction := StackTable.inFunction_iff hname
    by_cases hexit : name = some settings.exitFunction
    · subst hexit
      have hleaves : Leaves settings table s.frames s.frames.dropLast := by
        rw [hframes, List.dropLast_concat]
        exact .inner (hin.mpr rfl)
      rw [if_pos rfl] at h
      obtain rfl := Except.ok.inj h
      exact Trims.of_leaves hleaves
    · have hleaves : Leaves settings table s.frames s.frames := by
        rw [hframes]
        exact .all (mt hin.mp hexit)
      rw [if_neg hexit] at h
      obtain rfl := Except.ok.inj h
      exact Trims.of_leaves hleaves

theorem trimsPair_of_trimPair (h : trimPair settings table p = .ok p') :
    TrimsPair settings table p p' := by
  obtain ⟨first, hfirst, h⟩ := Outcome.bind_eq_ok_iff.mp h
  obtain ⟨second, hsecond, h⟩ := Outcome.bind_eq_ok_iff.mp h
  obtain rfl := Except.ok.inj h
  exact ⟨trims_of_trimStack hfirst, trims_of_trimStack hsecond, rfl⟩

end Report

/-! ### Frames that share a node -/

namespace Grain

variable {grain : Grain} {table : StackTable} {pos pos' : Pos} {label : String}

/-- Frames that share a node: in either grain a frame with itself, and by function all frames that
are in one function. -/
inductive Joins : Grain → Pos → Pos → Prop where
  /-- A frame shares a node with itself. -/
  | refl (grain : Grain) (pos : Pos) : Joins grain pos pos
  /-- By function, the lines of one function share a node. -/
  | function (file file' func row row' : Nat) :
      Joins .function (.resolved file func row) (.resolved file' func row')

theorem line_key (pos : Pos) : Grain.line.key pos = .frame pos := by
  cases pos <;> rfl

/-- Frames with the same key are those that share a node. -/
theorem key_eq_key_iff : grain.key pos = grain.key pos' ↔ grain.Joins pos pos' := by
  constructor
  · intro h
    cases grain with
    | line =>
      -- the key is the whole frame
      rw [line_key, line_key] at h
      exact Key.frame.inj h ▸ .refl _ _
    | function =>
      -- the key of a resolved frame is its function, and any other frame is its own key
      cases pos with
      | unresolved text =>
        cases pos' with
        | unresolved text' => exact Key.frame.inj h ▸ .refl _ _
        | resolved file' func' row' => exact Key.noConfusion h
      | resolved file func row =>
        cases pos' with
        | unresolved text' => exact Key.noConfusion h
        | resolved file' func' row' =>
          obtain rfl := Key.function.inj h
          exact .function _ _ _ _ _
  · rintro (_ | _) <;> rfl

/-- What the node of a frame is labelled with: the text of a frame that is not resolved; else the
function, and by line also the last component of the file and the line. -/
inductive Labels (table : StackTable) : Grain → Pos → String → Prop where
  /-- A frame that is not resolved. -/
  | unresolved (grain : Grain) (text : String) : Labels table grain (.unresolved text) text
  /-- A frame that is drawn by function. -/
  | function {file func row : Nat} {name : String}
      (hname : table.funcs.strings[func]? = some name) :
      Labels table .function (.resolved file func row) name
  /-- A frame that is drawn by line. -/
  | line {file func row : Nat} {name path : String}
      (hname : table.funcs.strings[func]? = some name)
      (hpath : table.files.strings[file]? = some path) :
      Labels table .line (.resolved file func row)
        (name ++ "\n" ++ lastComponent path ++ ":" ++ Text.decimal row)

theorem labels_of_label (h : grain.label table pos = .ok label) : grain.Labels table pos label := by
  cases pos with
  | unresolved text =>
    have htext : grain.label table (.unresolved text) = .ok text := by cases grain <;> rfl
    obtain rfl := Except.ok.inj (htext.symm.trans h)
    exact .unresolved grain text
  | resolved file func row =>
    cases grain with
    | function => exact .function (StringTable.strings_of_get h)
    | line =>
      obtain ⟨name, hname, h⟩ := Outcome.bind_eq_ok_iff.mp h
      obtain ⟨path, hpath, h⟩ := Outcome.bind_eq_ok_iff.mp h
      obtain rfl := Except.ok.inj h
      rw [baseName_eq_lastComponent]
      exact .line (StringTable.strings_of_get hname) (StringTable.strings_of_get hpath)

end Grain

/-! ### Nodes and arrows -/

namespace CallGraph

variable {grain : Grain} {pairs : List StackPair} {pos caller callee : Pos} {a b : Nat}

/-- The key of each node. -/
def keys (grain : Grain) (g : CallGraph) : List Key := g.nodes.map grain.key

/-- A node is there and shows a frame. -/
def Shows (grain : Grain) (g : CallGraph) (a : Nat) (pos : Pos) : Prop :=
  ∃ node, g.nodes[a]? = some node ∧ grain.Joins node pos

theorem Shows.lt {g : CallGraph} (h : g.Shows grain a pos) : a < g.nodes.length := by
  obtain ⟨_, hnode, _⟩ := h
  exact (List.getElem?_eq_some_iff.mp hnode).1

theorem shows_iff {g : CallGraph} :
    g.Shows grain a pos ↔ (g.keys grain)[a]? = some (grain.key pos) := by
  rw [keys, List.getElem?_map, Option.map_eq_some_iff]
  simp only [Shows, Grain.key_eq_key_iff]

theorem isFirstSeen_nodes (grain : Grain) (pairs : List StackPair) :
    IsFirstSeen grain.key (drawn pairs) (ofPairs grain pairs).nodes :=
  isFirstSeen_firstSeen grain.key (drawn pairs)

/-- The node of a frame stands where the key of the frame does. -/
theorem nodeOf_eq_idxOf (grain : Grain) (nodes : List Pos) (pos : Pos) :
    nodeOf grain nodes pos = (nodes.map grain.key).idxOf (grain.key pos) := by
  rw [nodeOf, List.idxOf, List.findIdx_map]
  rfl

theorem key_mem_keys (grain : Grain) (hpos : pos ∈ drawn pairs) :
    grain.key pos ∈ (ofPairs grain pairs).keys grain :=
  ((isFirstSeen_nodes grain pairs).covers _).mpr (List.mem_map_of_mem hpos)

/-- The node of a frame is the one with its key. -/
theorem getElem?_keys_iff (hpos : pos ∈ drawn pairs) :
    ((ofPairs grain pairs).keys grain)[a]? = some (grain.key pos) ↔
      nodeOf grain (ofPairs grain pairs).nodes pos = a := by
  have hmem := key_mem_keys grain hpos
  rw [nodeOf_eq_idxOf]
  change _ ↔ ((ofPairs grain pairs).keys grain).idxOf (grain.key pos) = a
  constructor
  · intro ha
    obtain ⟨hlt, heq⟩ := List.getElem?_eq_some_iff.mp ha
    rw [← heq]
    exact (isFirstSeen_nodes grain pairs).nodup.idxOf_getElem a hlt
  · rintro rfl
    exact List.getElem?_idxOf hmem

/-- The node that shows a frame that is drawn is the node of the frame. -/
theorem shows_iff_nodeOf (hpos : pos ∈ drawn pairs) :
    (ofPairs grain pairs).Shows grain a pos ↔ nodeOf grain (ofPairs grain pairs).nodes pos = a :=
  shows_iff.trans (getElem?_keys_iff hpos)

/-- A frame and the one directly outside it. -/
theorem mem_callsOf {s : Stack} :
    (caller, callee) ∈ callsOf s ↔
      ∃ i, s.frames[i + 1]? = some caller ∧ s.frames[i]? = some callee := by
  rw [callsOf, List.mem_reverse, List.mem_iff_getElem?]
  simp only [List.getElem?_zip_eq_some, List.getElem?_tail]

/-- An arrow leads from one node to another exactly if a frame of the one stands directly outside a
frame of the other. -/
theorem mem_calls :
    (a, b) ∈ (ofPairs grain pairs).calls ↔ ∃ p ∈ pairs, ∃ s ∈ [p.first, p.second],
      ∃ i caller callee, s.frames[i + 1]? = some caller ∧ s.frames[i]? = some callee ∧
        (ofPairs grain pairs).Shows grain a caller ∧
        (ofPairs grain pairs).Shows grain b callee := by
  -- both frames are drawn, so that each has its node
  have hdrawn : ∀ {p : StackPair} {s : Stack} {i : Nat} {pos : Pos}, p ∈ pairs →
      s ∈ [p.first, p.second] → s.frames[i]? = some pos → pos ∈ drawn pairs := by
    intro p s i pos hp hs hpos
    exact List.mem_flatMap.mpr ⟨s, List.mem_flatMap.mpr ⟨p, hp, hs⟩, List.mem_of_getElem? hpos⟩
  change (a, b) ∈ firstSeen id _ ↔ _
  rw [mem_firstSeen_id, List.mem_map]
  constructor
  · rintro ⟨⟨caller, callee⟩, hcall, hnodes⟩
    obtain ⟨s, hs, hcall⟩ := List.mem_flatMap.mp hcall
    obtain ⟨p, hp, hs⟩ := List.mem_flatMap.mp hs
    obtain ⟨i, hcaller, hcallee⟩ := mem_callsOf.mp hcall
    obtain ⟨ha, hb⟩ := Prod.mk.inj hnodes
    exact ⟨p, hp, s, hs, i, caller, callee, hcaller, hcallee,
      (shows_iff_nodeOf (hdrawn hp hs hcaller)).mpr ha,
      (shows_iff_nodeOf (hdrawn hp hs hcallee)).mpr hb⟩
  · rintro ⟨p, hp, s, hs, i, caller, callee, hcaller, hcallee, ha, hb⟩
    refine ⟨(caller, callee), List.mem_flatMap.mpr ⟨s, List.mem_flatMap.mpr ⟨p, hp, hs⟩,
      mem_callsOf.mpr ⟨i, hcaller, hcallee⟩⟩, Prod.ext ?_ ?_⟩
    · exact (shows_iff_nodeOf (hdrawn hp hs hcaller)).mp ha
    · exact (shows_iff_nodeOf (hdrawn hp hs hcallee)).mp hb

theorem innermostOf_eq_some_iff {p : StackPair} {first second : Pos} :
    innermostOf p = some (first, second) ↔
      p.first.frames.head? = some first ∧ p.second.frames.head? = some second := by
  rw [innermostOf, Stack.innermost?, Stack.innermost?]
  cases p.first.frames.head? with
  | none => simp
  | some first' => cases p.second.frames.head? <;> simp

/-- Innermost frames are drawn. -/
theorem mem_drawn_of_innermostOf {p : StackPair} {ends : Pos × Pos} (hp : p ∈ pairs)
    (hends : innermostOf p = some ends) : ends.1 ∈ drawn pairs ∧ ends.2 ∈ drawn pairs := by
  obtain ⟨hfirst, hsecond⟩ := innermostOf_eq_some_iff.mp hends
  exact ⟨mem_drawn.mpr ⟨p, hp, .inl (List.mem_of_head? hfirst)⟩,
    mem_drawn.mpr ⟨p, hp, .inr (List.mem_of_head? hsecond)⟩⟩

/-- The ends of an acquisition are nodes. -/
theorem lt_of_mem_acquisitions {weight : Nat}
    (h : ((a, b), weight) ∈ (ofPairs grain pairs).acquisitions) :
    a < (ofPairs grain pairs).nodes.length ∧ b < (ofPairs grain pairs).nodes.length := by
  simp only [ofPairs, totals, List.mem_map] at h
  obtain ⟨⟨ends, count⟩, hseen, heq⟩ := h
  obtain ⟨p, hp, hends⟩ := List.mem_filterMap.mp ((isFirstSeen_firstSeen _ _).mem hseen)
  obtain ⟨⟨first, second⟩, hinnermost, hends⟩ := Option.map_eq_some_iff.mp hends
  -- the ends are the nodes of the innermost frames
  obtain ⟨hfirst, hsecond⟩ := mem_drawn_of_innermostOf hp hinnermost
  obtain ⟨rfl, rfl⟩ := Prod.mk.inj ((Prod.mk.inj hends).1.trans (Prod.mk.inj heq).1)
  exact ⟨nodeOf_lt grain hfirst, nodeOf_lt grain hsecond⟩

end CallGraph

/-! ### The lines of a drawing -/

namespace Report

variable {table : StackTable} {grain : Grain} {g : CallGraph} {labels : List String}

/-- A red arrow of a drawing. -/
structure RedArrow where
  /-- The nodes that it leads from and to. -/
  ends : Nat × Nat
  /-- How wide it is. -/
  width : Float
  /-- The count that it is labelled with. -/
  label : Nat

/-- The line of a red arrow. -/
def RedArrow.line (red : RedArrow) : String :=
  "  n" ++ Text.decimal red.ends.1 ++ " -> n" ++ Text.decimal red.ends.2 ++
    " [color=red,penwidth=" ++ Number.plainText red.width ++ ",label=" ++
    Text.decimal red.label ++ "];"

/-- The lines of a drawing whose nodes have the given labels: a header, the nodes, the calls, the
red arrows and a closing brace. -/
def callGraphLines (labels : List String) (calls : List (Nat × Nat)) (reds : List RedArrow) :
    List String :=
  ["digraph \"\" \x7b", "  node [shape=box,fontsize=10];"] ++
    labels.mapIdx (fun node label =>
      "  n" ++ Text.decimal node ++ " [label=" ++ dotString label ++ "];") ++
    calls.map (fun call =>
      "  n" ++ Text.decimal call.1 ++ " -> n" ++ Text.decimal call.2 ++ ";") ++
    reds.map RedArrow.line ++
    ["\x7d"]

theorem mem_callGraphLines_of_call {calls : List (Nat × Nat)} {reds : List RedArrow} {a b : Nat}
    (h : (a, b) ∈ calls) :
    "  n" ++ Text.decimal a ++ " -> n" ++ Text.decimal b ++ ";" ∈
      callGraphLines labels calls reds :=
  List.mem_append_left _ (List.mem_append_left _ (List.mem_append_right _
    (List.mem_map.mpr ⟨(a, b), h, rfl⟩)))

theorem mem_callGraphLines_of_red {calls : List (Nat × Nat)} {reds : List RedArrow}
    {red : RedArrow} (h : red ∈ reds) : red.line ∈ callGraphLines labels calls reds :=
  List.mem_append_left _ (List.mem_append_right _ (List.mem_map_of_mem h))

/-- The acquisitions of a call graph as they are drawn. -/
def redArrows (settings : Settings) (g : CallGraph) : List RedArrow :=
  g.acquisitions.map fun entry => ⟨entry.1, penWidth settings entry.2 g.heaviest, entry.2⟩

theorem map_ends_redArrows (settings : Settings) (g : CallGraph) :
    (redArrows settings g).map RedArrow.ends = g.acquisitions.map Prod.fst := by
  rw [redArrows, List.map_map]
  rfl

theorem map_label_redArrows (settings : Settings) (g : CallGraph) :
    (redArrows settings g).map RedArrow.label = g.acquisitions.map Prod.snd := by
  rw [redArrows, List.map_map]
  rfl

/-- The labels are those of the nodes of a call graph. -/
def LabelledBy (table : StackTable) (grain : Grain) (g : CallGraph) (labels : List String) : Prop :=
  List.Forall₂ (fun pos label => grain.label table pos = .ok label) g.nodes labels

/-! ### The lines that are written -/

theorem append_nodeName (text : String) (node : Nat) :
    text ++ nodeName node = text ++ "n" ++ Text.decimal node := by
  rw [nodeName, String.append_assoc]

theorem frameLine_eq {node : Nat} {pos : Pos} {label : String}
    (h : grain.label table pos = .ok label) :
    frameLine table grain node pos =
      .ok ("  n" ++ Text.decimal node ++ " [label=" ++ dotString label ++ "];") := by
  rw [frameLine, h, append_nodeName]
  rfl

theorem arrow_eq (source target : Nat) :
    "  " ++ nodeName source ++ " -> " ++ nodeName target =
      "  n" ++ Text.decimal source ++ " -> n" ++ Text.decimal target := by
  have harrow : ∀ text : String, text ++ " -> " ++ "n" = text ++ " -> n" :=
    fun _ => String.append_assoc
  rw [append_nodeName, append_nodeName, harrow]
  rfl

theorem callLine_eq (call : Nat × Nat) :
    callLine call.1 call.2 =
      "  n" ++ Text.decimal call.1 ++ " -> n" ++ Text.decimal call.2 ++ ";" := by
  rw [callLine, arrow_eq]

theorem acquisitionLine_eq (settings : Settings) (heaviest : Nat) (entry : (Nat × Nat) × Nat) :
    acquisitionLine settings heaviest entry.1.1 entry.1.2 entry.2 =
      RedArrow.line ⟨entry.1, penWidth settings entry.2 heaviest, entry.2⟩ := by
  rw [acquisitionLine, arrow_eq]
  rfl

/-- A call graph with labels is drawn line by line. -/
theorem callGraphDot_eq_map_line (settings : Settings) (h : LabelledBy table grain g labels) :
    callGraphDot settings table grain g =
      (callGraphLines labels g.calls (redArrows settings g)).map Step.line := by
  have hnodes : g.nodes.zipIdx.map
      (fun entry => Step.ofLine (frameLine table grain entry.2 entry.1)) =
        (labels.mapIdx fun node label =>
          "  n" ++ Text.decimal node ++ " [label=" ++ dotString label ++ "];").map Step.line := by
    refine List.ext_getElem? fun i => ?_
    cases hpos : g.nodes[i]? with
    | none =>
      have hlabel : labels[i]? = none := by
        rw [List.getElem?_eq_none_iff] at hpos ⊢
        exact h.length_eq ▸ hpos
      simp [hpos, hlabel]
    | some pos =>
      -- the node at a position is shown with the label there
      obtain ⟨label, hlabel, hread⟩ := exists_getElem?_of_forall₂ h hpos
      simp [hpos, hlabel, frameLine_eq hread, Step.ofLine]
  change _ ++ g.nodes.zipIdx.map
    (fun entry => Step.ofLine (frameLine table grain entry.2 entry.1)) ++
    g.calls.map (fun call => Step.line (callLine call.1 call.2)) ++
    g.acquisitions.map (fun entry =>
      Step.line (acquisitionLine settings g.heaviest entry.1.1 entry.1.2 entry.2)) ++ _ = _
  -- the lines of calls and acquisitions are those spelled out above, one by one
  rw [hnodes]
  simp only [callLine_eq, acquisitionLine_eq, callGraphLines, redArrows, List.map_append,
    List.map_map]
  rfl

/-- Sound evidence is drawn line by line, from stacks that are trimmed and have frames. -/
theorem exists_callGraph (settings : Settings) (grain : Grain) {edge : Edge}
    (h : ∀ p ∈ edge.pairs, p.Sound table) :
    ∃ pairs labels, edge.pairs.mapM (trimPair settings table) = .ok pairs ∧
      List.Forall₂ (TrimsPair settings table) edge.pairs pairs ∧
      (∀ p ∈ pairs, p.first.frames ≠ [] ∧ p.second.frames ≠ []) ∧
      List.Forall₂ (grain.Labels table) (CallGraph.ofPairs grain pairs).nodes labels ∧
      ((edgeDot settings table grain edge).run none).2 =
        .ok (linesText (callGraphLines labels (CallGraph.ofPairs grain pairs).calls
          (redArrows settings (.ofPairs grain pairs)))) := by
  obtain ⟨pairs, hpairs, _, hall⟩ := exists_trimmed settings h
  obtain ⟨labels, hlabels⟩ := Outcome.exists_mapM_eq_ok fun pos hpos =>
    grain.exists_label (holds_of_mem_nodes grain (fun p hp => (hall p hp).2) pos hpos)
  have hlabelled : LabelledBy table grain (.ofPairs grain pairs) labels :=
    Outcome.mapM_eq_ok_iff.mp hlabels
  refine ⟨pairs, labels, hpairs, ?trimmed, fun p hp => (hall p hp).1,
    hlabelled.imp fun _ _ => Grain.labels_of_label, ?text⟩
  case trimmed => exact (Outcome.mapM_eq_ok_iff.mp hpairs).imp fun p p' => trimsPair_of_trimPair
  case text =>
    apply Script.run_none_of_text_eq_ok
    rw [edgeDot, hpairs]
    change (callGraphDot settings table grain (.ofPairs grain pairs)).text = _
    rw [callGraphDot_eq_map_line settings hlabelled, text_map_line]

/-! ### The drawing of an edge -/

/-- **The drawing of the calls behind an edge is exact.** For each edge of a graph that passes the
check, in either grain and under any settings, the drawing is a header, the nodes, the calls, the
red arrows and a closing brace, made from the trimmed stacks of the edge. Its nodes are the keys of
the frames, each once, numbered in the order in which they are first seen in the first and second
stack of each pair, and labelled after the first frame of each key. A call leads from one node to
another exactly if on some stack a frame of the one stands directly outside a frame of the other,
and is drawn once. Calls and red arrows lead from node to node; how wide the red arrows are and what
they are labelled with is left open. -/
theorem edgeDot_draws_calls (g : Graph) (hg : g.check = .ok ()) (e : EdgeId) (edge : Edge)
    (he : g.edgeAt e = .ok edge) (settings : Settings) (grain : Grain) :
    ∃ (pairs : List StackPair) (labels : List String) (drawing : CallGraph)
        (reds : List RedArrow),
      edge.pairs.mapM (trimPair settings g.table) = .ok pairs ∧
      List.Forall₂ (TrimsPair settings g.table) edge.pairs pairs ∧
      ((edgeDot settings g.table grain edge).run none).2 =
        .ok (linesText (callGraphLines labels drawing.calls reds)) ∧
      IsFirstSeen grain.key (CallGraph.drawn pairs) drawing.nodes ∧
      List.Forall₂ (grain.Labels g.table) drawing.nodes labels ∧
      drawing.calls.Nodup ∧
      (∀ a b, (a, b) ∈ drawing.calls ↔ ∃ p ∈ pairs, ∃ s ∈ [p.first, p.second],
        ∃ i caller callee, s.frames[i + 1]? = some caller ∧ s.frames[i]? = some callee ∧
          drawing.Shows grain a caller ∧ drawing.Shows grain b callee) ∧
      ∀ a b, (a, b) ∈ drawing.calls ∨ (a, b) ∈ reds.map RedArrow.ends →
        a < labels.length ∧ b < labels.length := by
  have hsound := (Graph.check_eq_ok_iff.mp hg).sound_of_edgeAt he
  obtain ⟨pairs, labels, hpairs, htrims, _, hlabels, htext⟩ :=
    exists_callGraph settings grain hsound
  refine ⟨pairs, labels, .ofPairs grain pairs, redArrows settings (.ofPairs grain pairs), hpairs,
    htrims, htext, CallGraph.isFirstSeen_nodes grain pairs, hlabels, nodup_firstSeen_id _,
    fun a b => CallGraph.mem_calls, fun a b hends => ?_⟩
  -- there are as many labels as nodes
  rw [← hlabels.length_eq]
  rcases hends with hcall | hred
  · obtain ⟨_, _, _, _, _, _, _, _, _, ha, hb⟩ := CallGraph.mem_calls.mp hcall
    exact ⟨ha.lt, hb.lt⟩
  · rw [map_ends_redArrows] at hred
    obtain ⟨⟨ends, weight⟩, hmem, rfl⟩ := List.mem_map.mp hred
    exact CallGraph.lt_of_mem_acquisitions hmem

/-- A function that calls itself has an arrow to itself. The other stacks are a thread that only
ends, one without frames and one with a frame that is not resolved. -/
theorem edgeDot_draws_calls_recursive :
    let edge : Edge := ⟨[⟨⟨[.resolved 0 0 7, .resolved 0 0 9, .resolved 0 1 3]⟩,
      ⟨[.resolved 0 1 3]⟩, 2⟩, ⟨⟨[]⟩, ⟨[.unresolved "?"]⟩, 1⟩]⟩
    let g : Graph := ⟨#["a", "b"], #[[edge], []], #[[1], []],
      ⟨⟨#["x/a.c"]⟩, ⟨#["main", "runtime.goexit"]⟩⟩⟩
    g.check = .ok () ∧ g.edgeAt ⟨0, 0⟩ = .ok edge ∧
      ∃ (labels : List String) (drawing : CallGraph) (reds : List RedArrow) (node : Nat),
        ((edgeDot {} g.table .function edge).run none).2 =
          .ok (linesText (callGraphLines labels drawing.calls reds)) ∧
        drawing.Shows .function node (.resolved 0 0 7) ∧
        drawing.Shows .function node (.resolved 0 0 9) ∧ (node, node) ∈ drawing.calls := by
  intro edge g
  obtain ⟨pairs, labels, drawing, reds, hpairs, _, htext, hnodes, _, _, hcalls, _⟩ :=
    edgeDot_draws_calls g rfl ⟨0, 0⟩ edge rfl {} .function
  obtain rfl : [⟨⟨[.resolved 0 0 7, .resolved 0 0 9]⟩, ⟨[.unresolved "missing stack"]⟩, 2⟩,
      ⟨⟨[.unresolved "missing stack"]⟩, ⟨[.unresolved "?"]⟩, 1⟩] = pairs := Except.ok.inj hpairs
  have hkey : Key.function 0 ∈ drawing.keys .function := (hnodes.covers _).mpr (by decide)
  obtain ⟨node, hnode⟩ := List.mem_iff_getElem?.mp hkey
  have hinner : drawing.Shows .function node (.resolved 0 0 7) := CallGraph.shows_iff.mpr hnode
  have houter : drawing.Shows .function node (.resolved 0 0 9) := CallGraph.shows_iff.mpr hnode
  -- the frame on line 9 stands directly outside the one on line 7
  have hcall : (node, node) ∈ drawing.calls :=
    (hcalls node node).mpr ⟨_, List.mem_cons_self, _, List.mem_cons_self, 0, .resolved 0 0 9,
      .resolved 0 0 7, rfl, rfl, houter, hinner⟩
  exact ⟨rfl, rfl, labels, drawing, reds, node, htext, hinner, houter, hcall⟩

end Report

end LockOrder
