import LockOrder.Error
import LockOrder.Toml.Document

/-!
# Report settings

Reports and drawings have a few settings, each with a default. A settings file overrides some of
them; a name that is no setting, a name given twice and a value of the wrong type are refused.

## Main definitions

* `Settings` — the settings
* `Settings.parse` — the settings of a file's text
-/

namespace LockOrder

/-- The settings of reports and drawings. -/
structure Settings where
  /-- How many pairs of stacks of an edge the text report shows. -/
  maxStackPairs : Nat := 5
  /-- What stands before every line of a stack in the text report. -/
  indent : String := "    "
  /-- What is left out at the beginning of a label. -/
  labelStart : String := "runtime."
  /-- The function that every thread ends in; drawings leave it out. -/
  exitFunction : String := "runtime.goexit"
  /-- What drawings show for a stack without frames. -/
  missingStack : String := "missing stack"
  /-- The pen width of the lightest acquisition. -/
  minPenWidth : Float := 1.0
  /-- The pen width of the heaviest acquisition. -/
  maxPenWidth : Float := 8.0
deriving BEq

namespace Settings

/-- The settings with one of them set; none if there is no such setting or the value has the
wrong type. -/
def set? (s : Settings) : String → Toml.Value → Option Settings
  | "max_stack_pairs", .whole (.ofNat n) => some { s with maxStackPairs := n }
  | "indent", .text t => some { s with indent := t }
  | "label_prefix", .text t => some { s with labelStart := t }
  | "exit_function", .text t => some { s with exitFunction := t }
  | "missing_stack", .text t => some { s with missingStack := t }
  | "min_pen_width", .whole n => some { s with minPenWidth := (Int64.ofInt n).toFloat }
  | "min_pen_width", .float x => some { s with minPenWidth := x }
  | "max_pen_width", .whole n => some { s with maxPenWidth := (Int64.ofInt n).toFloat }
  | "max_pen_width", .float x => some { s with maxPenWidth := x }
  | _, _ => none

/-- The settings after entries are set in order. `seen` are the names set before. -/
def setAll? (s : Settings) (seen : List String) : List (String × Toml.Value) → Option Settings
  | [] => some s
  | (name, value) :: rest =>
    if seen.contains name then none
    else
      match s.set? name value with
      | some s => s.setAll? (name :: seen) rest
      | none => none

/-- The settings of a file's text. -/
def parse (text : String) : Except Error Settings :=
  match (Toml.entries? text).bind (setAll? {} []) with
  | none => .error .settings
  | some s =>
    if s.maxPenWidth < s.minPenWidth then .error (.penWidths s.minPenWidth s.maxPenWidth)
    else .ok s

end Settings

end LockOrder
