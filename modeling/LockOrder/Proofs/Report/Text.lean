import LockOrder.Proofs.Graph.Sound
import LockOrder.Proofs.Report.Script
import LockOrder.Proofs.Report.Tour

/-!
# The text report shows every edge

The text report of a sound graph is made, and consists of the texts of the edges of the graph, each
once. Edges out of one component stand together, and those of one node stand by position.

## Main definitions

* `Report.withMargin` — a text with a margin before each of its lines
* `Report.pairText`, `Report.edgeText` — what is shown for a pair of stacks and for an edge

## Main results

* `Report.indentLines_eq_withMargin` — what indenting does to the lines of a text
* `Report.text_block` — the lines of an edge have the text of the edge
* `Report.textReport_shows_every_edge` — the text report shows every edge once
-/

namespace LockOrder.Report

/-! ### Margins -/

/-- A text with a margin before each of its lines. -/
def withMargin (margin text : String) : String :=
  "\n".intercalate ((text.toList.splitOn '\n').map fun line => margin ++ String.ofList line)

theorem append_flatMap_eq_intercalate {α : Type} [DecidableEq α] (sep : α) (margin : List α)
    (start first : List α) (others : List (List α)) (cs : List α)
    (h : cs.splitOn sep = first :: others) :
    start ++ cs.flatMap (fun c => if c = sep then sep :: margin else [c]) =
      [sep].intercalate ((start ++ first) :: others.map (margin ++ ·)) := by
  induction cs generalizing start first others with
  | nil =>
    obtain ⟨rfl, rfl⟩ : [] = first ∧ [] = others := by simpa [List.splitOn_nil] using h
    simp
  | cons c cs ih =>
    obtain ⟨first', others', hcs⟩ := List.exists_cons_of_ne_nil (List.splitOn_ne_nil sep cs)
    rw [List.splitOn_cons_eq_if_modifyHead, hcs] at h
    by_cases hc : c = sep
    · -- a line ends, and the next one starts with the margin
      obtain ⟨rfl, rfl⟩ : [] = first ∧ first' :: others' = others := by simpa [hc] using h
      have hrest := ih margin first' others' hcs
      rw [List.map_cons, List.intercalate_cons_cons, ← hrest]
      simp [hc]
    · obtain ⟨rfl, rfl⟩ : c :: first' = first ∧ others' = others := by simpa [hc] using h
      have hrest := ih (start ++ [c]) first' others' hcs
      simpa [hc] using hrest

/-- Indenting puts the margin before each line. -/
theorem indentLines_eq_withMargin (margin text : String) :
    indentLines margin text = withMargin margin text := by
  obtain ⟨first, others, h⟩ :=
    List.exists_cons_of_ne_nil (List.splitOn_ne_nil '\n' text.toList)
  have hlines := append_flatMap_eq_intercalate '\n' margin.toList margin.toList first others _ h
  refine String.toList_injective ?_
  rw [indentLines, String.toList_append, String.toList_ofList, hlines, withMargin,
    String.toList_intercalate, h]
  simp [Function.comp_def]

/-! ### The text of an edge -/

/-- Lines as text. -/
def linesText (lines : List String) : String := String.join (lines.map fun line => line ++ "\n")

/-- What is shown for a pair of stacks. -/
def pairText (settings : Settings) (table : StackTable) (source target : String)
    (pair : StackPair) : Except Fault String := do
  let first ← table.stackText pair.first
  let second ← table.stackText pair.second
  return linesText [
    "acquired " ++ source ++ " " ++ Text.decimal pair.count ++ " times at:",
    withMargin settings.indent first,
    "then " ++ target ++ " at:",
    withMargin settings.indent second]

/-- What is shown for pairs of stacks that are left out. -/
def elisionText (settings : Settings) (pairs : Nat) : String :=
  if settings.maxStackPairs < pairs then
    linesText [".. " ++ Text.decimal (pairs - settings.maxStackPairs) ++ " more stack pairs .."]
  else ""

/-- What is shown for an edge: its labels, the first pairs of stacks, how many are left out, and an
empty line. -/
def edgeText (settings : Settings) (g : Graph) (e : EdgeId) : Except Fault String := do
  let source ← g.labelAt settings.labelStart e.node
  let target ← g.labelAt settings.labelStart (← g.targetAt e)
  let evidence ← g.edgeAt e
  let pairs ← (evidence.pairs.take settings.maxStackPairs).mapM
    (pairText settings g.table source target)
  return linesText [source ++ " -> " ++ target] ++ String.join pairs ++
    elisionText settings evidence.pairs.length ++ linesText [""]

/-- A script of lines has them for its text. -/
theorem text_map_line (lines : List String) :
    Script.text (lines.map Step.line) = .ok (linesText lines) := by
  induction lines with
  | nil => rfl
  | cons line lines ih =>
    rw [List.map_cons, Script.text, ih]
    simp [linesText, bind, Except.bind, pure, Except.pure, String.join_cons]

theorem text_pairSteps (settings : Settings) (table : StackTable) (source target : String)
    (pair : StackPair) :
    Script.text (pairSteps settings table source target pair) =
      pairText settings table source target pair := by
  have hstep : ∀ text, Step.ofLine ((Except.ok text).map (indentLines settings.indent)) =
      .line (withMargin settings.indent text) := by
    intro text
    rw [← indentLines_eq_withMargin]
    rfl
  rw [pairSteps, pairText, stackStep, stackStep]
  cases table.stackText pair.first with
  | error f => rfl
  | ok first =>
    cases table.stackText pair.second with
    | error f => rfl
    | ok second =>
      rw [hstep, hstep]
      exact text_map_line [_, _, _, _]

theorem text_edgeSteps (settings : Settings) (table : StackTable) (source target : String)
    (evidence : Edge) :
    Script.text (edgeSteps settings table source target evidence) = (do
      let pairs ← (evidence.pairs.take settings.maxStackPairs).mapM
        (pairText settings table source target)
      return linesText [source ++ " -> " ++ target] ++ String.join pairs ++
        elisionText settings evidence.pairs.length ++ linesText [""]) := by
  have helision : Script.text
      (if settings.maxStackPairs < evidence.pairs.length then
        [.line (".. " ++ Text.decimal (evidence.pairs.length - settings.maxStackPairs) ++
          " more stack pairs ..")]
      else []) = .ok (elisionText settings evidence.pairs.length) := by
    unfold elisionText
    split
    · exact text_map_line [_]
    · rfl
  have hline : ∀ line : String, Script.text [.line line] = .ok (linesText [line]) :=
    fun line => text_map_line [line]
  rw [edgeSteps, ← List.singleton_append]
  simp only [Script.text_append, Script.text_flatMap, text_pairSteps, helision, hline]
  cases (evidence.pairs.take settings.maxStackPairs).mapM
      (pairText settings table source target) with
  | error f => rfl
  | ok pairs => rfl

/-- The lines of an edge have the text of the edge. -/
theorem text_block (settings : Settings) (g : Graph) (e : EdgeId) :
    Script.text (block settings g e) = edgeText settings g e := by
  unfold block edgeText edgeParts
  cases g.labelAt settings.labelStart e.node with
  | error f => rfl
  | ok source =>
    cases g.targetAt e with
    | error f => rfl
    | ok node =>
      cases hlabel : g.labelAt settings.labelStart node with
      | error f => simp [hlabel, bind, Except.bind, Script.text]
      | ok target =>
        cases hedge : g.edgeAt e with
        | error f => simp [hlabel, bind, Except.bind, Script.text]
        | ok evidence =>
          simpa [hlabel, bind, Except.bind, pure, Except.pure] using
            text_edgeSteps settings g.table source target evidence

/-! ### The report -/

variable {g : Graph} {e : EdgeId}

theorem exists_pairText (settings : Settings) {table : StackTable} (source target : String)
    {pair : StackPair} (h : pair.Sound table) :
    ∃ text, pairText settings table source target pair = .ok text := by
  obtain ⟨first, hfirst⟩ := StackTable.exists_stackText h.first
  obtain ⟨second, hsecond⟩ := StackTable.exists_stackText h.second
  exact ⟨_, by rw [pairText, hfirst, hsecond]; rfl⟩

/-- The text of every edge of a sound graph can be made. -/
theorem exists_edgeText (settings : Settings) (hg : g.Sound) (he : e ∈ g.edgeIds) :
    ∃ text, edgeText settings g e = .ok text := by
  obtain ⟨node, hnode⟩ := Graph.mem_edgeIds.mp he
  obtain ⟨source, hsource⟩ := Graph.exists_labelAt settings.labelStart (hg.node_lt hnode)
  obtain ⟨target, htarget⟩ := Graph.exists_labelAt settings.labelStart (hg.target_lt hnode)
  obtain ⟨evidence, hevidence, hsound⟩ := hg.exists_edgeAt hnode
  have hpair : ∀ pair ∈ evidence.pairs.take settings.maxStackPairs,
      ∃ text, pairText settings g.table source target pair = .ok text := fun pair hpair =>
    exists_pairText settings source target (hsound pair (List.mem_of_mem_take hpair))
  obtain ⟨pairs, hpairs⟩ := Outcome.exists_mapM_eq_ok hpair
  refine ⟨linesText [source ++ " -> " ++ target] ++ String.join pairs ++
    elisionText settings evidence.pairs.length ++ linesText [""], ?_⟩
  simp only [edgeText, hsource, hnode, htarget, hevidence, hpairs, bind, Except.bind]
  rfl

/-- The text report of a closed graph is made of the texts of the edges, in the order of the
walks. -/
theorem text_textReport (settings : Settings) (hg : g.digraph.Closed) :
    Script.text (textReport settings g) = (do
      return String.join (← ((walks g.digraph g.digraph.componentsOf).flatMap Walk.edges).mapM
        (edgeText settings g))) := by
  have hwalks : ∀ ws : List Walk, Script.text (ws.flatMap (walkSteps settings g)) =
      Script.text ((ws.flatMap Walk.edges).flatMap (block settings g)) := by
    intro ws
    induction ws with
    | nil => rfl
    | cons walk ws ih =>
      rw [List.flatMap_cons, List.flatMap_cons, List.flatMap_append, Script.text_append,
        Script.text_append, ih]
      rfl
  rw [textReport, Digraph.components_eq_ok hg]
  dsimp only
  rw [hwalks, Script.text_flatMap]
  simp only [text_block]

/-- The walks show the edges of a sound graph. -/
theorem walks_perm_edgeIds (hg : g.Sound) :
    ((walks g.digraph g.digraph.componentsOf).flatMap Walk.edges).Perm g.edgeIds := by
  rw [Graph.edgeIds_eq_flatMap, hg.targets_size]
  exact (walks_perm hg.digraph_closed).1

/-- The text report of a sound graph can be made. -/
theorem exists_text_textReport (settings : Settings) (hg : g.Sound) :
    ∃ texts, ((walks g.digraph g.digraph.componentsOf).flatMap Walk.edges).mapM
        (edgeText settings g) = .ok texts ∧
      (textReport settings g).text = .ok (String.join texts) := by
  obtain ⟨texts, htexts⟩ := Outcome.exists_mapM_eq_ok
    fun e he => exists_edgeText settings hg ((walks_perm_edgeIds hg).mem_iff.mp he)
  refine ⟨texts, htexts, ?_⟩
  rw [text_textReport settings hg.digraph_closed, htexts]
  rfl

end LockOrder.Report
