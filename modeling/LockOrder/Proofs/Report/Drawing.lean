import LockOrder.Proofs.EdgeId
import LockOrder.Proofs.Report.Text
import LockOrder.Report.Dot

/-!
# Drawings determine graphs

A label may hold anything: quotes, line breaks, whole statements of a drawing. A drawing is
nevertheless read back in one way only, because every piece of it tells where it ends. A number ends
before the first character that is no digit, quoted text ends at the first quote that is not
escaped, a statement ends with its last piece, and the statements end where none begins. Two
drawings with the same text are therefore made of the same statements, and these tell the nodes,
the labels and the edges of the graph.

## Main definitions

* `Report.SelfDelimiting` — what is written for a value tells the value and its own end
* `Report.Statement` — a statement of a drawing

## Main results

* `Report.SelfDelimiting.flatMap` — a list of such pieces with a stop after it
* `Report.selfDelimiting_dotString`, `Report.Statement.selfDelimiting_chars` — quoted text and
  statements
* `Report.graphDot_determines_graph` — drawings with the same text
-/

namespace LockOrder

open Text (digits digits_append_inj digits_injective)

theorem Graph.lt_of_labelAt {g : Graph} {start label : String} {v : Nat}
    (h : g.labelAt start v = .ok label) : v < g.nodeCount := by
  obtain ⟨stored, hstored, _⟩ := Outcome.bind_eq_ok_iff.mp h
  exact (Array.getElem?_eq_some_iff.mp (arrayAt_eq_ok_iff.mp hstored)).1

namespace Report

/-! ### Pieces that tell their own end -/

/-- What is written for a value tells the value and where it ends, whatever stands behind it. -/
def SelfDelimiting {α : Type} (write : α → List Char) : Prop :=
  ∀ a b x y, write a ++ x = write b ++ y → a = b ∧ x = y

/-- A list of pieces tells its end by a character that no piece begins with. -/
theorem SelfDelimiting.flatMap {α : Type} {write : α → List Char} (h : SelfDelimiting write)
    {stop : Char} (hstart : ∀ a, ∃ c cs, write a = c :: cs ∧ c ≠ stop) :
    SelfDelimiting fun as : List α => as.flatMap write ++ [stop] := by
  -- a list cannot stop where another one goes on
  have hgoesOn : ∀ (a : α) (as : List α) (x y : List Char),
      stop :: x ≠ (a :: as).flatMap write ++ stop :: y := by
    intro a as x y heq
    obtain ⟨c, cs, hwrite, hne⟩ := hstart a
    rw [List.flatMap_cons, hwrite] at heq
    exact hne (List.cons.inj heq).1.symm
  intro as bs x y heq
  simp only [List.append_assoc, List.singleton_append] at heq
  induction as generalizing bs with
  | nil =>
    cases bs with
    | nil => exact ⟨rfl, (List.cons.inj heq).2⟩
    | cons b bs => exact absurd heq (hgoesOn b bs x y)
  | cons a as ih =>
    cases bs with
    | nil => exact absurd heq.symm (hgoesOn a as y x)
    | cons b bs =>
      rw [List.flatMap_cons, List.flatMap_cons, List.append_assoc, List.append_assoc] at heq
      obtain ⟨rfl, hrest⟩ := h a b _ _ heq
      obtain ⟨rfl, hxy⟩ := ih bs hrest
      exact ⟨rfl, hxy⟩

/-- The character that an escape stands for. -/
def unescaped : Char → Char
  | 'n' => '\n'
  | c => c

/-- A character is escaped by a backslash and another one, or stands for itself. -/
theorem dotEscape_cases (c : Char) :
    (∃ d, dotEscape c = ['\\', d] ∧ unescaped d = c) ∨
      dotEscape c = [c] ∧ c ≠ '\\' ∧ c ≠ '"' := by
  unfold dotEscape
  split
  · exact .inl ⟨'"', rfl, rfl⟩
  · exact .inl ⟨'\\', rfl, rfl⟩
  · exact .inl ⟨'n', rfl, rfl⟩
  · rename_i hquote hbackslash _
    exact .inr ⟨rfl, hbackslash, hquote⟩

theorem selfDelimiting_dotEscape : SelfDelimiting dotEscape := by
  intro c c' x y h
  rcases dotEscape_cases c with ⟨d, hd, rfl⟩ | ⟨hc, hbackslash, _⟩ <;>
  rcases dotEscape_cases c' with ⟨d', hd', rfl⟩ | ⟨hc', hbackslash', _⟩
  · rw [hd, hd'] at h
    obtain ⟨rfl, rfl⟩ : d = d' ∧ x = y := by simpa using h
    exact ⟨rfl, rfl⟩
  · rw [hd, hc'] at h
    exact absurd (List.cons.inj h).1.symm hbackslash'
  · rw [hc, hd'] at h
    exact absurd (List.cons.inj h).1 hbackslash
  · rw [hc, hc'] at h
    exact List.cons.inj h

/-- Quoted text ends at the first quote that is not escaped. -/
theorem selfDelimiting_dotString : SelfDelimiting fun s => (dotString s).toList := by
  have hstart : ∀ c, ∃ d ds, dotEscape c = d :: ds ∧ d ≠ '"' := by
    intro c
    rcases dotEscape_cases c with ⟨d, hd, _⟩ | ⟨hc, _, hquote⟩
    · exact ⟨_, _, hd, by decide⟩
    · exact ⟨_, _, hc, hquote⟩
  intro s s' x y h
  simp only [dotString, String.toList_ofList, List.cons_append, List.cons.injEq, true_and] at h
  obtain ⟨hchars, hxy⟩ := selfDelimiting_dotEscape.flatMap hstart s.toList s'.toList x y h
  exact ⟨String.toList_injective hchars, hxy⟩

/-! ### Statements -/

/-- A statement of the drawing of a lock graph. -/
inductive Statement where
  /-- A node with its label. -/
  | node (node : Nat) (label : String)
  /-- An edge with its target. -/
  | edge (edge : EdgeId) (target : Nat)
deriving DecidableEq, Repr

namespace Statement

/-- The line of a statement. -/
def line : Statement → String
  | .node v label => "  " ++ nodeName v ++ " [label=" ++ dotString label ++ ",id=" ++
      dotString (nodeName v) ++ "];"
  | .edge e target => "  " ++ nodeName e.node ++ " -> " ++ nodeName target ++ " [id=" ++
      dotString e.text ++ "];"

/-- The characters of a statement, up to the end of its line. -/
def chars (s : Statement) : List Char := s.line.toList ++ ['\n']

theorem chars_node_append (v : Nat) (label : String) (x : List Char) :
    (node v label).chars ++ x = "  n".toList ++ (digits v ++ ' ' :: ("[label=".toList ++
      ((dotString label).toList ++ (",id=".toList ++ ((dotString (nodeName v)).toList ++
        ("];\n".toList ++ x)))))) := by
  simp [chars, line, toList_nodeName]

theorem chars_edge_append (e : EdgeId) (target : Nat) (x : List Char) :
    (edge e target).chars ++ x = "  n".toList ++ (digits e.node ++ ' ' :: ("-> n".toList ++
      (digits target ++ ' ' :: ("[id=".toList ++ ((dotString e.text).toList ++
        ("];\n".toList ++ x)))))) := by
  simp [chars, line, toList_nodeName]

theorem chars_node_append_ne (v : Nat) (label : String) (e : EdgeId) (target : Nat)
    (x y : List Char) : (node v label).chars ++ x ≠ (edge e target).chars ++ y := by
  intro h
  rw [chars_node_append, chars_edge_append, List.append_cancel_left_eq] at h
  -- the number of the node ends at the same place in both, and a bracket is no arrow
  obtain ⟨_, _, hrest⟩ := digits_append_inj rfl rfl h
  simp at hrest

/-- A statement tells where it ends. -/
theorem selfDelimiting_chars : SelfDelimiting chars := by
  intro s s' x y h
  cases s with
  | node v label =>
    cases s' with
    | node v' label' =>
      rw [chars_node_append, chars_node_append, List.append_cancel_left_eq] at h
      obtain ⟨rfl, _, hlabel⟩ := digits_append_inj rfl rfl h
      rw [List.append_cancel_left_eq] at hlabel
      obtain ⟨rfl, hrest⟩ := selfDelimiting_dotString _ _ _ _ hlabel
      simp only [List.append_cancel_left_eq] at hrest
      exact ⟨rfl, hrest⟩
    | edge e' target' => exact absurd h (chars_node_append_ne v label e' target' x y)
  | edge e target =>
    cases s' with
    | node v' label' => exact absurd h.symm (chars_node_append_ne v' label' e target y x)
    | edge e' target' =>
      rw [chars_edge_append, chars_edge_append, List.append_cancel_left_eq] at h
      obtain ⟨_, _, htarget⟩ := digits_append_inj rfl rfl h
      rw [List.append_cancel_left_eq] at htarget
      obtain ⟨rfl, _, hid⟩ := digits_append_inj rfl rfl htarget
      rw [List.append_cancel_left_eq] at hid
      -- the source stands before the arrow too, but the identifier tells both parts of the name
      obtain ⟨htext, hrest⟩ := selfDelimiting_dotString _ _ _ _ hid
      obtain rfl := EdgeId.text_injective htext
      exact ⟨rfl, List.append_cancel_left hrest⟩

end Statement

/-! ### Drawings -/

/-- The lines of the drawing that consists of some statements. -/
def drawingOf (statements : List Statement) : List String :=
  dotOpening :: statements.map Statement.line ++ [dotClosing]

theorem toList_linesText (lines : List String) :
    (linesText lines).toList = lines.flatMap fun line => line.toList ++ ['\n'] := by
  induction lines with
  | nil => rfl
  | cons line lines ih =>
    rw [List.flatMap_cons, ← ih]
    simp [linesText, String.join_cons]

/-- The text of a drawing tells its statements. -/
theorem linesText_drawingOf_injective :
    Function.Injective fun statements => linesText (drawingOf statements) := by
  have hchars : ∀ statements, (linesText (drawingOf statements)).toList =
      (dotOpening.toList ++ ['\n']) ++
        ((statements.flatMap Statement.chars ++ ['\x7d']) ++ ['\n']) := by
    intro statements
    rw [toList_linesText, drawingOf, List.cons_append, List.flatMap_cons, List.flatMap_append,
      List.flatMap_map, List.append_assoc (List.flatMap _ _)]
    rfl
  have hstart : ∀ s : Statement, ∃ c cs, s.chars = c :: cs ∧ c ≠ '\x7d' := by
    intro s
    refine ⟨' ', ?_⟩
    cases s <;> simp [Statement.chars, Statement.line]
  intro statements statements' h
  have h := congrArg String.toList h
  rw [hchars, hchars, List.append_cancel_left_eq] at h
  exact (Statement.selfDelimiting_chars.flatMap hstart _ _ _ _ h).1

/-- The statement of a node. -/
def nodeStatement (settings : Settings) (g : Graph) (v : Nat) : Except Fault Statement := do
  return .node v (← g.labelAt settings.labelStart v)

/-- The statement of an edge. -/
def edgeStatement (g : Graph) (e : EdgeId) : Except Fault Statement := do
  return .edge e (← g.targetAt e)

theorem nodeLine_eq_map (settings : Settings) (g : Graph) (v : Nat) :
    nodeLine settings g v = (nodeStatement settings g v).map Statement.line := by
  unfold nodeLine nodeStatement
  cases g.labelAt settings.labelStart v <;> rfl

theorem edgeLine_eq_map (g : Graph) (e : EdgeId) :
    edgeLine g e = (edgeStatement g e).map Statement.line := by
  unfold edgeLine edgeStatement
  cases g.targetAt e <;> rfl

theorem nodeStatement_eq_ok_iff {settings : Settings} {g : Graph} {v : Nat} {s : Statement} :
    nodeStatement settings g v = .ok s ↔
      ∃ label, g.labelAt settings.labelStart v = .ok label ∧ .node v label = s := by
  rw [nodeStatement, Outcome.bind_eq_ok_iff]
  simp only [pure, Except.pure, Except.ok.injEq]

theorem edgeStatement_eq_ok_iff {g : Graph} {e : EdgeId} {s : Statement} :
    edgeStatement g e = .ok s ↔ ∃ target, g.targetAt e = .ok target ∧ .edge e target = s := by
  rw [edgeStatement, Outcome.bind_eq_ok_iff]
  simp only [pure, Except.pure, Except.ok.injEq]

/-- Lines of statements that can be made are the lines of a list of statements. -/
theorem exists_map_line {α : Type} {xs : List α} {make : α → Except Fault Statement}
    (h : ∀ x ∈ xs, ∃ s, make x = .ok s) :
    ∃ statements : List Statement,
      xs.map (fun x => Step.ofLine ((make x).map Statement.line)) =
        (statements.map Statement.line).map Step.line ∧
      ∀ s, s ∈ statements ↔ ∃ x ∈ xs, make x = .ok s := by
  obtain ⟨statements, hmake⟩ := Outcome.exists_mapM_eq_ok h
  rw [Outcome.mapM_eq_ok_iff] at hmake
  refine ⟨statements, ?lines, fun s => ⟨?made, ?listed⟩⟩
  case lines =>
    rw [List.map_map, ← List.forall₂_eq_eq_eq, List.forall₂_map_left_iff,
      List.forall₂_map_right_iff]
    refine hmake.imp fun x s hs => ?_
    rw [hs]
    rfl
  case made =>
    intro hs
    obtain ⟨x, hx, hmade⟩ := Outcome.exists_left_of_forall₂ hmake hs
    exact ⟨x, hx, hmade⟩
  case listed =>
    rintro ⟨x, hx, hs⟩
    obtain ⟨s', hs', hmade⟩ := Outcome.exists_right_of_forall₂ hmake hx
    obtain rfl := Except.ok.inj (hs.symm.trans hmade)
    exact hs'

/-- A graph is drawn by a statement for each node with its label and one for each edge with its
target. -/
theorem exists_statements (settings : Settings) (g : Graph) :
    ∃ statements, (graphDot settings g).text = .ok (linesText (drawingOf statements)) ∧
      (∀ v label, .node v label ∈ statements ↔ g.labelAt settings.labelStart v = .ok label) ∧
      ∀ e target, .edge e target ∈ statements ↔ g.targetAt e = .ok target := by
  have hnode : ∀ v ∈ List.range g.nodeCount, ∃ s, nodeStatement settings g v = .ok s := by
    intro v hv
    obtain ⟨label, hlabel⟩ := Graph.exists_labelAt settings.labelStart (List.mem_range.mp hv)
    exact ⟨_, nodeStatement_eq_ok_iff.mpr ⟨label, hlabel, rfl⟩⟩
  have hedge : ∀ e ∈ g.edgeIds, ∃ s, edgeStatement g e = .ok s := by
    intro e he
    obtain ⟨target, htarget⟩ := Graph.mem_edgeIds.mp he
    exact ⟨_, edgeStatement_eq_ok_iff.mpr ⟨target, htarget, rfl⟩⟩
  obtain ⟨nodes, hnodes, hmemNodes⟩ := exists_map_line hnode
  obtain ⟨edges, hedges, hmemEdges⟩ := exists_map_line hedge
  refine ⟨nodes ++ edges, ?text, fun v label => ?nodes, fun e target => ?edges⟩
  case text =>
    simp only [graphDot, nodeLine_eq_map, edgeLine_eq_map, hnodes, hedges]
    rw [← text_map_line]
    simp [drawingOf]
  case nodes =>
    simp only [List.mem_append, hmemNodes, hmemEdges, nodeStatement_eq_ok_iff,
      edgeStatement_eq_ok_iff, List.mem_range]
    constructor
    · rintro (⟨v', _, label', hlabel, heq⟩ | ⟨e, _, target, _, heq⟩)
      · cases heq
        exact hlabel
      · cases heq
    · intro hlabel
      exact .inl ⟨v, Graph.lt_of_labelAt hlabel, label, hlabel, rfl⟩
  case edges =>
    simp only [List.mem_append, hmemNodes, hmemEdges, nodeStatement_eq_ok_iff,
      edgeStatement_eq_ok_iff]
    constructor
    · rintro (⟨v, _, label, _, heq⟩ | ⟨e', _, target', htarget, heq⟩)
      · cases heq
      · cases heq
        exact htarget
    · intro htarget
      exact .inr ⟨e, Graph.mem_edgeIds.mpr ⟨target, htarget⟩, target, htarget, rfl⟩

/-! ### Drawings with the same text -/

section SameText

variable {settings settings' : Settings} {g g' : Graph}

/-- A graph that shows all labels of another one has as many nodes or more. -/
theorem nodeCount_le_of_labelAt (h : ∀ v label,
    g.labelAt settings.labelStart v = .ok label → g'.labelAt settings'.labelStart v = .ok label) :
    g.nodeCount ≤ g'.nodeCount := by
  apply Nat.le_of_not_lt
  intro hlt
  -- the first node past the end of the other graph would have a label there
  obtain ⟨label, hlabel⟩ := Graph.exists_labelAt settings.labelStart hlt
  exact Nat.lt_irrefl _ (Graph.lt_of_labelAt (h _ label hlabel))

/-- Sound graphs with as many nodes have the same lists of targets if their edges lead to the same
targets. -/
theorem targets_eq_of_targetAt (hg : g.Sound) (hg' : g'.Sound) (hcount : g.nodeCount = g'.nodeCount)
    (h : ∀ e target, g.targetAt e = .ok target ↔ g'.targetAt e = .ok target) :
    g.targets = g'.targets := by
  have hsize : g.targets.size = g'.targets.size := by
    rw [hg.targets_size, hg'.targets_size, hcount]
  refine Array.ext hsize fun v hv hv' => ?_
  ext i target
  have hedge := h ⟨v, i⟩ target
  rw [Graph.targetAt_eq_ok_iff, Graph.targetAt_eq_ok_iff] at hedge
  simpa [Graph.digraph, Digraph.targets, hv, hv'] using hedge

/-- A drawing shows nothing but labels and targets. -/
theorem graphDot_congr (hcount : g.nodeCount = g'.nodeCount)
    (hlabels : ∀ v < g.nodeCount,
      g.labelAt settings.labelStart v = g'.labelAt settings'.labelStart v)
    (htargets : g.targets = g'.targets) : graphDot settings g = graphDot settings' g' := by
  have hnodes : (List.range g.nodeCount).map (fun v => Step.ofLine (nodeLine settings g v)) =
      (List.range g'.nodeCount).map (fun v => Step.ofLine (nodeLine settings' g' v)) := by
    rw [← hcount]
    apply List.map_congr_left
    intro v hv
    rw [nodeLine, nodeLine, hlabels v (List.mem_range.mp hv)]
  have hedges : g.edgeIds.map (fun e => Step.ofLine (edgeLine g e)) =
      g'.edgeIds.map (fun e => Step.ofLine (edgeLine g' e)) := by
    simp only [Graph.edgeIds, edgeLine, Graph.targetAt, htargets]
  rw [graphDot, graphDot, hnodes, hedges]

end SameText

/-- **The drawing of a lock graph determines the graph.** Graphs that pass the check are drawn,
under any settings. The drawings have the same text exactly when the graphs have the same number of
nodes, the same label is shown at each node, and the lists of targets are the same; then the edges
have the same names and the same ends. This holds whatever the labels are. -/
theorem graphDot_determines_graph (g g' : Graph) (hg : g.check = .ok ()) (hg' : g'.check = .ok ())
    (settings settings' : Settings) :
    ∃ t t', ((graphDot settings g).run none).2 = .ok t ∧
      ((graphDot settings' g').run none).2 = .ok t' ∧
      (t = t' ↔ g.nodeCount = g'.nodeCount ∧
        (∀ v < g.nodeCount, ∃ label, g.labelAt settings.labelStart v = .ok label ∧
          g'.labelAt settings'.labelStart v = .ok label) ∧
        g.targets = g'.targets ∧ g.edgeIds = g'.edgeIds ∧
        ∀ e ∈ g.edgeIds, ∃ target, g.targetAt e = .ok target ∧ g'.targetAt e = .ok target) := by
  rw [Graph.check_eq_ok_iff] at hg hg'
  obtain ⟨statements, htext, hnodes, hedges⟩ := exists_statements settings g
  obtain ⟨statements', htext', hnodes', hedges'⟩ := exists_statements settings' g'
  refine ⟨_, _, Script.run_none_of_text_eq_ok htext, Script.run_none_of_text_eq_ok htext',
    ?same, ?alike⟩
  case same =>
    intro heq
    obtain rfl := linesText_drawingOf_injective heq
    have hlabel := fun v label => (hnodes v label).symm.trans (hnodes' v label)
    have htarget := fun e target => (hedges e target).symm.trans (hedges' e target)
    have hcount : g.nodeCount = g'.nodeCount :=
      Nat.le_antisymm (nodeCount_le_of_labelAt fun v label => (hlabel v label).mp)
        (nodeCount_le_of_labelAt fun v label => (hlabel v label).mpr)
    have htargets := targets_eq_of_targetAt hg hg' hcount htarget
    refine ⟨hcount, fun v hv => ?_, htargets, by rw [Graph.edgeIds, Graph.edgeIds, htargets],
      fun e he => ?_⟩
    · obtain ⟨label, hshown⟩ := Graph.exists_labelAt settings.labelStart hv
      exact ⟨label, hshown, (hlabel v label).mp hshown⟩
    · obtain ⟨target, hleads⟩ := Graph.mem_edgeIds.mp he
      exact ⟨target, hleads, (htarget e target).mp hleads⟩
  case alike =>
    rintro ⟨hcount, hlabels, htargets, _⟩
    have hscript : graphDot settings g = graphDot settings' g' := by
      refine graphDot_congr hcount (fun v hv => ?_) htargets
      obtain ⟨label, hshown, hshown'⟩ := hlabels v hv
      rw [hshown, hshown']
    rw [hscript, htext'] at htext
    exact (Except.ok.inj htext).symm

/-- A label that spells out the statement of a loop is not drawn like a loop. A label with the part
that the settings leave out is drawn like the label without it. -/
theorem graphDot_determines_graph_spelled :
    let table : StackTable := .empty
    let spelled : Graph := ⟨#["a\"];\n  n0 -> n0 [id=\"e0-0"], #[[]], #[[]], table⟩
    let looped : Graph := ⟨#["a"], #[[⟨[]⟩]], #[[0]], table⟩
    let qualified : Graph := ⟨#["runtime.a"], #[[⟨[]⟩]], #[[0]], table⟩
    let text := fun (settings : Settings) g => ((graphDot settings g).run none).2
    spelled.check = .ok () ∧ looped.check = .ok () ∧ qualified.check = .ok () ∧
      text {} spelled ≠ text {} looped ∧
      text {} qualified = text { labelStart := "lock." } looped := by
  intro table spelled looped qualified text
  refine ⟨rfl, rfl, rfl, fun heq => ?_, ?_⟩
  · obtain ⟨t, t', ht, ht', hiff⟩ := graphDot_determines_graph spelled looped rfl rfl {} {}
    have htargets := (hiff.mp (Except.ok.inj (ht.symm.trans (heq.trans ht')))).2.2.1
    exact absurd htargets (by decide)
  · obtain ⟨t, t', ht, ht', hiff⟩ :=
      graphDot_determines_graph qualified looped rfl rfl {} { labelStart := "lock." }
    have hsame : t = t' := by
      refine hiff.mpr ⟨rfl, fun v hv => ⟨"a", ?_⟩, rfl, rfl, fun e he => ⟨0, ?_⟩⟩
      · obtain rfl : v = 0 := Nat.lt_one_iff.mp hv
        have hqualified : Graph.stripStart "runtime." "runtime.a" = "a" :=
          Graph.stripStart_append "runtime." "a"
        have hlooped : Graph.stripStart "lock." "a" = "a" :=
          Graph.stripStart_of_ne_append fun rest heq =>
            absurd (congrArg String.toList heq) (by simp)
        exact ⟨congrArg Except.ok hqualified, congrArg Except.ok hlooped⟩
      · obtain rfl : e = ⟨0, 0⟩ := List.mem_singleton.mp he
        exact ⟨rfl, rfl⟩
    exact ht.trans (hsame ▸ ht'.symm)

end Report

end LockOrder
