import LockOrder.Number.Basic

/-!
# TOML strings

A string stands in double quotes, where escapes are replaced, or in single quotes, where nothing
is. Tripled quotes hold text of several lines: a line break right after the opening is dropped,
line breaks are line feeds however they are written, up to two quotes may stand before the
closing ones, and in double quotes a backslash at the end of a line joins it to the next text.

Each reader takes the characters after the opening quotes and gives the string and what follows
it, or nothing if the string is malformed.

## Main definitions

* `Toml.basicBody`, `Toml.basicLines` — strings in double quotes
* `Toml.literalBody`, `Toml.literalLines` — strings in single quotes
* `Toml.string?` — a string of any kind
-/

namespace LockOrder.Toml

/-- A space or a tab. -/
def isBlank (c : Char) : Bool := c = ' ' || c = '\t'

/-- Drops leading spaces and tabs. -/
def skipBlanks (cs : List Char) : List Char := cs.dropWhile isBlank

/-- Drops a line break. -/
def lineBreak? : List Char → Option (List Char)
  | '\n' :: rest => some rest
  | '\r' :: '\n' :: rest => some rest
  | _ => none

/-- Characters that may stand for themselves anywhere in a line: all but the controls, of which
the tab is allowed. -/
def isInline (c : Char) : Bool := c = '\t' || (0x20 ≤ c.toNat && c.toNat ≠ 0x7F)

/-- The character with a code point, if there is one. -/
def charOf? (n : Nat) : Option Char := if n.isValidChar then some (Char.ofNat n) else none

/-- The character with the code point that hexadecimal digits spell. -/
def hexChar? (digits : List Char) : Option Char :=
  (Text.natOfDigitsFrom? Text.hexValue? 16 0 digits).bind charOf?

/-- The character of a one-letter escape. -/
def shortEscape? : Char → Option Char
  | 'b' => some '\x08'
  | 't' => some '\t'
  | 'n' => some '\n'
  | 'f' => some '\x0c'
  | 'r' => some '\r'
  | '"' => some '"'
  | '\\' => some '\\'
  | _ => none

/-- Text and what follows it. `acc` holds the characters so far, the latest first. -/
def finished (acc rest : List Char) : Option (String × List Char) :=
  some (String.ofList acc.reverse, rest)

/-- The rest of a string in double quotes on one line. -/
def basicBody (acc : List Char) : List Char → Option (String × List Char)
  | [] => none
  | '"' :: rest => finished acc rest
  | '\\' :: 'u' :: a :: b :: c :: d :: rest =>
    match hexChar? [a, b, c, d] with
    | some x => basicBody (x :: acc) rest
    | none => none
  | '\\' :: 'U' :: a :: b :: c :: d :: e :: f :: g :: h :: rest =>
    match hexChar? [a, b, c, d, e, f, g, h] with
    | some x => basicBody (x :: acc) rest
    | none => none
  | '\\' :: c :: rest =>
    match shortEscape? c with
    | some x => basicBody (x :: acc) rest
    | none => none
  | c :: rest => if isInline c && c ≠ '\\' then basicBody (c :: acc) rest else none

/-- The rest of a string in single quotes on one line. -/
def literalBody (acc : List Char) : List Char → Option (String × List Char)
  | [] => none
  | '\'' :: rest => finished acc rest
  | c :: rest => if isInline c then literalBody (c :: acc) rest else none

/-- The rest of a string in tripled double quotes. While `joining`, blanks and line breaks are
dropped. -/
def basicLines (joining : Bool) (acc : List Char) : List Char → Option (String × List Char)
  | [] => none
  | '"' :: '"' :: '"' :: '"' :: '"' :: rest => finished ('"' :: '"' :: acc) rest
  | '"' :: '"' :: '"' :: '"' :: rest => finished ('"' :: acc) rest
  | '"' :: '"' :: '"' :: rest => finished acc rest
  | '"' :: rest => basicLines false ('"' :: acc) rest
  | '\n' :: rest => basicLines joining (if joining then acc else '\n' :: acc) rest
  | '\r' :: '\n' :: rest => basicLines joining (if joining then acc else '\n' :: acc) rest
  | '\\' :: 'u' :: a :: b :: c :: d :: rest =>
    match hexChar? [a, b, c, d] with
    | some x => basicLines false (x :: acc) rest
    | none => none
  | '\\' :: 'U' :: a :: b :: c :: d :: e :: f :: g :: h :: rest =>
    match hexChar? [a, b, c, d, e, f, g, h] with
    | some x => basicLines false (x :: acc) rest
    | none => none
  | '\\' :: '\n' :: rest => basicLines true acc rest
  | '\\' :: '\r' :: '\n' :: rest => basicLines true acc rest
  | '\\' :: c :: rest =>
    match shortEscape? c with
    | some x => basicLines false (x :: acc) rest
    | none =>
      if isBlank c && (lineBreak? (skipBlanks rest)).isSome then basicLines true acc rest
      else none
  | c :: rest =>
    if joining && isBlank c then basicLines true acc rest
    else if isInline c && c ≠ '\\' then basicLines false (c :: acc) rest
    else none

/-- The rest of a string in tripled single quotes. -/
def literalLines (acc : List Char) : List Char → Option (String × List Char)
  | [] => none
  | '\'' :: '\'' :: '\'' :: '\'' :: '\'' :: rest => finished ('\'' :: '\'' :: acc) rest
  | '\'' :: '\'' :: '\'' :: '\'' :: rest => finished ('\'' :: acc) rest
  | '\'' :: '\'' :: '\'' :: rest => finished acc rest
  | '\n' :: rest => literalLines ('\n' :: acc) rest
  | '\r' :: '\n' :: rest => literalLines ('\n' :: acc) rest
  | c :: rest => if isInline c then literalLines (c :: acc) rest else none

/-- Drops one line break, if there is one. -/
def dropBreak (cs : List Char) : List Char := (lineBreak? cs).getD cs

/-- A string of any kind, from its opening quotes on. -/
def string? : List Char → Option (String × List Char)
  | '"' :: '"' :: '"' :: rest => basicLines false [] (dropBreak rest)
  | '"' :: rest => basicBody [] rest
  | '\'' :: '\'' :: '\'' :: rest => literalLines [] (dropBreak rest)
  | '\'' :: rest => literalBody [] rest
  | _ => none

end LockOrder.Toml
