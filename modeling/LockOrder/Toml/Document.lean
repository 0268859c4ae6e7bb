import LockOrder.Toml.Number
import LockOrder.Toml.Text

/-!
# Flat TOML documents

A settings file is a list of lines that give a value to a name. Blank lines and comments may
stand between them. Values are strings and numbers; tables, arrays, dates and truth values are
refused, since no setting takes one, and so are dotted names.

## Main definitions

* `Toml.Value` — a string or a number
* `Toml.entries?` — the names and values of a document in order
-/

namespace LockOrder.Toml

/-- The value of an entry. -/
inductive Value where
  /-- A string. -/
  | text (s : String)
  /-- A whole number. -/
  | whole (n : Int)
  /-- A float. -/
  | float (x : Float)

/-- Characters of a name without quotes. -/
def isBareKey (c : Char) : Bool := c.isAlphanum || c = '_' || c = '-'

/-- The name of an entry and what follows it. -/
def key? : List Char → Option (String × List Char)
  | '"' :: rest => basicBody [] rest
  | '\'' :: rest => literalBody [] rest
  | cs =>
    let name := cs.takeWhile isBareKey
    if name.isEmpty then none else some (String.ofList name, cs.dropWhile isBareKey)

/-- The value of an entry and what follows it. -/
def value? (cs : List Char) : Option (Value × List Char) :=
  match cs with
  | '"' :: _ | '\'' :: _ => (string? cs).map fun (s, rest) => (.text s, rest)
  | _ => (number? cs).map fun (n, rest) =>
    (match n with | .whole n => .whole n | .float x => .float x, rest)

/-- Drops a comment, if there is one. -/
def skipComment : List Char → List Char
  | '#' :: rest => rest.dropWhile isInline
  | cs => cs

/-- Drops the rest of a line: blanks, a comment, and the line break or the end of the text. -/
def lineEnd? (cs : List Char) : Option (List Char) :=
  match skipComment (skipBlanks cs) with
  | [] => some []
  | rest => lineBreak? rest

/-- A name, an equals sign and a value on a line of their own. -/
def entry? (cs : List Char) : Option ((String × Value) × List Char) := do
  let (name, rest) ← key? cs
  match skipBlanks rest with
  | '=' :: rest =>
    let (value, rest) ← value? (skipBlanks rest)
    return ((name, value), ← lineEnd? rest)
  | _ => none

/-- The entries of the lines that are left. Every line has a character, so their number bounds
the lines. -/
def lines? : Nat → List Char → Option (List (String × Value))
  | 0, _ => some []
  | fuel + 1, cs =>
    match skipBlanks cs with
    | [] => some []
    | '#' :: rest => do lines? fuel (← lineEnd? ('#' :: rest))
    | '\n' :: rest => lines? fuel rest
    | '\r' :: '\n' :: rest => lines? fuel rest
    | cs => do
      let (entry, rest) ← entry? cs
      return entry :: (← lines? fuel rest)

/-- The names and values of a document in order. A byte order mark before it is dropped. -/
def entries? (text : String) : Option (List (String × Value)) :=
  let cs :=
    match text.toList with
    | '\uFEFF' :: rest => rest
    | cs => cs
  lines? (cs.length + 1) cs

end LockOrder.Toml
