import LockOrder.Number.Basic

/-!
# Writing JSON text

Text is written without white space. A string keeps every character but the quote, the
backslash and the controls below the space, which are escaped.

## Main definitions

* `Json.escapeChar`, `Json.quote` — strings
* `Json.array`, `Json.object` — arrays and objects of written values
* `Json.indentedArray`, `Json.indentedObject` — the same over several lines
-/

namespace LockOrder.Json

/-- How a string shows a character. -/
def escapeChar (c : Char) : List Char :=
  match c with
  | '"' => ['\\', '"']
  | '\\' => ['\\', '\\']
  | '\x08' => ['\\', 'b']
  | '\x0c' => ['\\', 'f']
  | '\n' => ['\\', 'n']
  | '\r' => ['\\', 'r']
  | '\t' => ['\\', 't']
  | c =>
    if c.toNat < 0x20 then
      ['\\', 'u', '0', '0', Text.digitChar (c.toNat / 16), Text.digitChar (c.toNat % 16)]
    else [c]

/-- A string. -/
def quote (s : String) : String :=
  String.ofList ('"' :: s.toList.flatMap escapeChar ++ ['"'])

/-- An array of written values. -/
def array (items : List String) : String := "[" ++ ",".intercalate items ++ "]"

/-- A member of an object. -/
def memberText (name value : String) : String := quote name ++ ":" ++ value

/-- An object of named written values. -/
def object (members : List (String × String)) : String :=
  "\x7b" ++ ",".intercalate (members.map fun (name, value) => memberText name value) ++ "\x7d"

/-- Items inside brackets, one to a line, two spaces further in than `margin`. -/
def indented (margin opening closing : String) : List String → String
  | [] => opening ++ closing
  | items =>
    let inner := margin ++ "  "
    opening ++ "\n" ++ ",\n".intercalate (items.map (inner ++ ·)) ++ "\n" ++ margin ++ closing

/-- An array of written values, one to a line. -/
def indentedArray (margin : String) (items : List String) : String :=
  indented margin "[" "]" items

/-- An object of named written values, one to a line. -/
def indentedObject (margin : String) (members : List (String × String)) : String :=
  indented margin "\x7b" "\x7d" (members.map fun (name, value) => quote name ++ ": " ++ value)

end LockOrder.Json
