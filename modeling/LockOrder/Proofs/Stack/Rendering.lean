import LockOrder.Proofs.Stack.Growth
import Mathlib.Data.List.TakeWhile

/-!
# Symbolized stacks are rendered as they were given

A symbolizer gives the frames of a stack by names. The names go into two tables that grow from frame
to frame, and a frame keeps only where its names stand. Whatever was in the tables before, and
whatever is interned later, a stack is rendered with the names it was given, each file by the last
component of its path.

## Main definitions

* `pathComponents`, `lastComponent` — what stands between the slashes of a path, and the last of it
* `SourceLine.text` — a frame by names, on one line
* `StackTable.Renders` — a frame is inside a table and stands for a line there

## Main results

* `baseName_eq_lastComponent` — the name of a file is the last component of its path
* `StackTable.renders_intern`, `StackTable.renders_internAll` — frames stand for what they were made
  from
* `StackTable.stackOfLines_renders_lines` — stacks are rendered as they were given
-/

namespace LockOrder

/-! ### Components of a path -/

/-- What stands between the slashes of a path, unless it is empty. -/
def pathComponents (path : List Char) : List (List Char) := (path.splitOn '/').filter (· ≠ [])

/-- The last component of a path. A path without components, which is empty or made of slashes
alone, stands for itself. -/
def lastComponent (path : String) : String :=
  ((pathComponents path.toList).getLast?.map String.ofList).getD path

theorem pathComponents_append_slash (path word : List Char) :
    pathComponents (path ++ '/' :: word) = pathComponents path ++ pathComponents word := by
  rw [pathComponents, List.splitOn_append_cons_self, List.filter_append]
  rfl

theorem pathComponents_of_not_mem {word : List Char} (hword : '/' ∉ word) (hne : word ≠ []) :
    pathComponents word = [word] := by
  rw [pathComponents, List.splitOn_eq_singleton hword]
  simp [hne]

/-- The last component of a path as it is found from the end: trailing slashes are passed over, and
what comes before them is taken up to the next slash. -/
def baseChars (path : List Char) : List Char :=
  ((path.reverse.dropWhile (· = '/')).takeWhile (· ≠ '/')).reverse

theorem baseChars_concat_slash (path : List Char) : baseChars (path ++ ['/']) = baseChars path := by
  simp [baseChars]

theorem baseChars_concat {c : Char} (hc : c ≠ '/') (path : List Char) :
    baseChars (path ++ [c]) = (path.reverse.takeWhile (· ≠ '/')).reverse ++ [c] := by
  simp [baseChars, hc]

/-- A path that ends in no slash has all that comes after its last slash for its last component. -/
theorem getLast?_pathComponents_concat {c : Char} (hc : c ≠ '/') (path : List Char) :
    (pathComponents (path ++ [c])).getLast? = some (baseChars (path ++ [c])) := by
  have hsplit := List.takeWhile_append_dropWhile (p := fun d => d ≠ '/') (l := path.reverse)
  have hword : ∀ d ∈ path.reverse.takeWhile (· ≠ '/'), d ≠ '/' :=
    fun d hd => by simpa using List.mem_takeWhile_imp hd
  have hstop := List.head?_dropWhile_not (fun d => d ≠ '/') path.reverse
  rw [baseChars_concat hc]
  generalize path.reverse.takeWhile (fun d => d ≠ '/') = word at hsplit hword ⊢
  generalize path.reverse.dropWhile (fun d => d ≠ '/') = rest at hsplit hstop
  have hlast : pathComponents (word.reverse ++ [c]) = [word.reverse ++ [c]] :=
    pathComponents_of_not_mem (by simpa [Ne.symm hc] using fun h => hword '/' h rfl) (by simp)
  cases rest with
  | nil =>
    rw [← List.reverse_reverse path, ← hsplit, List.append_nil, hlast]
    rfl
  | cons d rest =>
    obtain rfl : d = '/' := by simpa using hstop
    rw [← List.reverse_reverse path, ← hsplit, List.reverse_append, List.reverse_cons,
      List.append_assoc, List.append_assoc, List.singleton_append, pathComponents_append_slash,
      hlast, List.getLast?_concat]

theorem getLast?_pathComponents (path : List Char) :
    (pathComponents path).getLast? =
      if (baseChars path).isEmpty then none else some (baseChars path) := by
  induction path using List.reverseRecOn with
  | nil => rfl
  | append_singleton path c ih =>
    by_cases hc : c = '/'
    · -- a slash at the end makes no difference
      subst hc
      rw [pathComponents_append_slash, baseChars_concat_slash, ← ih]
      exact congrArg List.getLast? (List.append_nil _)
    · rw [getLast?_pathComponents_concat hc, if_neg (by simp [baseChars_concat hc])]

/-- The name of a file is the last component of its path. -/
theorem baseName_eq_lastComponent (path : String) : baseName path = lastComponent path := by
  rw [lastComponent, getLast?_pathComponents]
  change (if (baseChars path.toList).isEmpty then path else _) = _
  cases (baseChars path.toList).isEmpty <;> rfl

/-! ### Frames that stand for lines -/

/-- A frame by names, on one line. -/
def SourceLine.text (l : SourceLine) : String :=
  l.func ++ " " ++ lastComponent l.file ++ ":" ++ Text.decimal l.line

namespace StackTable

variable {t t' : StackTable} {pos : Pos} {l : SourceLine}

/-- A frame is inside a table and stands for a line there. -/
structure Renders (t : StackTable) (l : SourceLine) (pos : Pos) : Prop where
  /-- The frame is inside. -/
  holds : t.Holds pos
  /-- The frame is rendered as the line. -/
  frameText_eq : t.frameText pos = .ok l.text

/-- Interning more names changes nothing about that. -/
theorem Renders.growsTo (h : t.Renders l pos) (hgrows : t.GrowsTo t') : t'.Renders l pos :=
  ⟨hgrows.holds h.holds, (hgrows.frameText_eq h.holds).trans h.frameText_eq⟩

/-- A frame stands for the line that it was made from. -/
theorem renders_intern (t : StackTable) (l : SourceLine) :
    (t.intern l).2.Renders l (t.intern l).1 := by
  have hfile := StringTable.get_of_indexOf? (t.files.indexOf?_add l.file)
  have hfunc := StringTable.get_of_indexOf? (t.funcs.indexOf?_add l.func)
  refine ⟨⟨StringTable.lt_size_of_get hfile, StringTable.lt_size_of_get hfunc⟩, ?_⟩
  rw [SourceLine.text, ← baseName_eq_lastComponent]
  change (do
    let file ← (t.files.add l.file).2.get (t.files.add l.file).1
    let func ← (t.funcs.add l.func).2.get (t.funcs.add l.func).1
    return func ++ " " ++ baseName file ++ ":" ++ Text.decimal l.line) = _
  rw [hfile, hfunc]
  rfl

/-- The frames of a list of lines stand for them in order. Each was made in a table that grew
afterwards. -/
theorem renders_internAll (t : StackTable) (ls : List SourceLine) :
    List.Forall₂ (t.internAll ls).2.Renders ls (t.internAll ls).1 := by
  induction ls generalizing t with
  | nil => exact .nil
  | cons l ls ih =>
    exact .cons ((t.renders_intern l).growsTo (growsTo_internAll _ ls)) (ih (t.intern l).2)

/-- **Stacks are rendered as they were given.** Let a stack be made from a symbolizer's lines in any
table, whatever strings that holds and however often. Every frame of the stack passes the check. The
stack is rendered as the lines in order, each with its function, the last component of its file and
its number. It is rendered so at once and after any interning, and in every table that goes on from
the one that it was made in. -/
theorem stackOfLines_renders_lines (t : StackTable) (ls : List SourceLine) :
    let made := t.stackOfLines ls
    let text := "\n".intercalate (ls.map SourceLine.text)
    (∀ pos ∈ made.1.frames, made.2.check pos = .ok ()) ∧
      (∀ calls : List Interning, (calls.foldl after made.2).stackText made.1 = .ok text) ∧
      ∀ t', made.2.GrowsTo t' → t'.stackText made.1 = .ok text := by
  intro made text
  have hrenders : List.Forall₂ made.2.Renders ls made.1.frames := t.renders_internAll ls
  have hlater : ∀ t', made.2.GrowsTo t' → t'.stackText made.1 = .ok text := by
    intro t' hgrows
    have hframes : made.1.frames.mapM t'.frameText = .ok (ls.map SourceLine.text) := by
      rw [Outcome.mapM_eq_ok_iff, List.forall₂_map_right_iff]
      exact hrenders.flip.imp fun pos l h => (h.growsTo hgrows).frameText_eq
    rw [stackText, hframes]
    rfl
  refine ⟨fun pos hpos => ?_, fun calls => hlater _ (growsTo_after _ calls), hlater⟩
  obtain ⟨l, -, h⟩ := Outcome.exists_left_of_forall₂ hrenders hpos
  exact check_eq_ok_iff.mpr h.holds

/-- A table comes with names in it twice, and paths end in slashes or are made of them. -/
theorem stackOfLines_renders_lines_repeated :
    let t : StackTable := ⟨⟨#["a/b.go", "//", "a/b.go"]⟩, ⟨#["f", "f"]⟩⟩
    let made := t.stackOfLines [⟨"f", "a/b.go", 30⟩, ⟨"g", "//", 0⟩, ⟨"f", "c//d//", 7⟩]
    let call := Interning.lines [⟨"h", "a/b.go", 1⟩, ⟨"f", "", 2⟩]
    let later := made.2.after call
    made.1.frames = [.resolved 2 1 30, .resolved 1 2 0, .resolved 3 1 7] ∧
      made.2.GrowsTo later ∧ later.stackText made.1 = .ok "f b.go:30\ng //:0\nf d:7" := by
  intro t made call later
  have hgrows : made.2.GrowsTo later := made.2.growsTo_after [call]
  refine ⟨by decide, hgrows, ?_⟩
  have hlater := (stackOfLines_renders_lines t _).2.2 later hgrows
  rw [hlater]
  decide +kernel

end StackTable

end LockOrder
