import LockOrder.Number.Layout
import LockOrder.Text.Character

/-!
# What can be wrong with JSON text

Text is read for a value of a known shape, in one pass. The first thing that is wrong ends the
reading, be it the syntax of the text, the shape of the value, or that the text breaks off.

## Main definitions

* `Json.Cut` — why a text breaks off before its end
* `Json.Found` — what stands in the place of a value
* `Json.Flaw` — what is wrong with a text
* `Json.Flaw.message` — how it is reported
-/

namespace LockOrder.Json

/-- The layer below the text whose failure cuts it off. -/
inductive Cut where
  /-- The base64 text is malformed. -/
  | base64
  /-- The compressed stream is malformed, or stops early. -/
  | compression
deriving DecidableEq, Repr

/-- What stands in the place of a value. -/
inductive Found where
  /-- The null value. -/
  | null
  /-- A truth value. -/
  | boolean (b : Bool)
  /-- A whole number. -/
  | integer (n : Int)
  /-- Any other number, by the bits of its float. -/
  | float (bits : UInt64)
  /-- A string. -/
  | text (s : String)
  /-- An array. -/
  | list
  /-- An object. -/
  | object
deriving DecidableEq, Repr

/-- What is wrong with a text. -/
inductive Flaw where
  /-- It is no JSON text, or holds a number too large for a float. -/
  | syntaxError
  /-- It breaks off. -/
  | cut (cause : Cut)
  /-- A value has the wrong type. -/
  | wrongType (found : Found) (expected : String)
  /-- A number is out of its range. -/
  | outOfRange (found : Found) (expected : String)
  /-- An array has the wrong number of elements. -/
  | wrongLength (length : Nat) (expected : String)
  /-- An object lacks a member. -/
  | missing (name : String)
  /-- An object has a member twice. -/
  | duplicate (name : String)
deriving DecidableEq, Repr

/-- How messages name what was found. -/
def Found.describe : Found → String
  | .null => "null"
  | .boolean b => "boolean `" ++ (if b then "true" else "false") ++ "`"
  | .integer n => "integer `" ++ toString n ++ "`"
  | .float bits => "floating point `" ++ Number.pointed.text bits ++ "`"
  | .text s => "string " ++ Text.quoted s
  | .list => "sequence"
  | .object => "map"

/-- The message of a flaw. -/
def Flaw.message : Flaw → String
  | .syntaxError => "malformed JSON"
  | .cut .base64 => "malformed base64"
  | .cut .compression => "malformed compressed data"
  | .wrongType found expected => s!"invalid type: {found.describe}, expected {expected}"
  | .outOfRange found expected => s!"invalid value: {found.describe}, expected {expected}"
  | .wrongLength length expected => s!"invalid length {length}, expected {expected}"
  | .missing name => s!"missing field `{name}`"
  | .duplicate name => s!"duplicate field `{name}`"

end LockOrder.Json
