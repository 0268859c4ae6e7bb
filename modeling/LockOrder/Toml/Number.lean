import LockOrder.Number.Basic

/-!
# TOML numbers

Digits may be grouped by single underscores between them. Whole numbers may be written in
hexadecimal, octal or binary, without a sign then; in decimal they take a sign and no leading
zeros. A number with a fraction or an exponent is a float, and so are `inf` and `nan`.

## Main definitions

* `Toml.digitRun?` — digits with underscores
* `Toml.Number` — a whole number or a float
* `Toml.number?` — reads a number
-/

namespace LockOrder.Toml

/-- A number. -/
inductive Number where
  /-- A whole number. -/
  | whole (n : Int)
  /-- A float. -/
  | float (x : Float)

/-- The rest of a run of digits, and what follows it. An underscore stands between two digits.
`acc` holds the digits so far, the latest first. -/
def digitsAfter (isDigit : Char → Bool) (acc : List Char) :
    List Char → Option (List Char × List Char)
  | [] => some (acc.reverse, [])
  | '_' :: rest =>
    match rest with
    | c :: rest => if isDigit c then digitsAfter isDigit (c :: acc) rest else none
    | [] => none
  | c :: rest =>
    if isDigit c then digitsAfter isDigit (c :: acc) rest else some (acc.reverse, c :: rest)

/-- A run of at least one digit, without its underscores, and what follows it. -/
def digitRun? (isDigit : Char → Bool) : List Char → Option (List Char × List Char)
  | c :: rest => if isDigit c then digitsAfter isDigit [c] rest else none
  | [] => none

/-- Whether a character is a decimal digit. -/
def isDecimal (c : Char) : Bool := (Text.digitValue? c).isSome

/-- The number that decimal digits spell. -/
def ofDigits (digits : List Char) : Nat := (Text.natOfDigits? digits).getD 0

/-- A whole number, if it fits into 64 bits with a sign. -/
def whole? (n : Int) : Option Number :=
  if -(signedBound : Int) ≤ n ∧ n < signedBound then some (.whole n) else none

/-- A whole number without a sign in a base up to sixteen. -/
def inBase? (base : Nat) (cs : List Char) : Option (Number × List Char) := do
  let isDigit (c : Char) := ((Text.hexValue? c).map fun d => decide (d < base)).getD false
  let (digits, rest) ← digitRun? isDigit cs
  return (← whole? ((Text.natOfDigitsFrom? Text.hexValue? base 0 digits).getD 0), rest)

/-- The float `± mantissa * 10 ^ exponent`, correctly rounded. Exponents that lead out of the
range of floats are not worked out. -/
def decimalFloat (negative : Bool) (mantissa : Nat) (exponent : Int) : Float :=
  let size : Int := (Text.digits mantissa).length + exponent
  let x :=
    if mantissa = 0 ∨ size < -400 then 0
    else if 400 < size then 1 / 0
    else
      match exponent with
      | .ofNat e => Float.ofScientific mantissa false e
      | .negSucc e => Float.ofScientific mantissa true (e + 1)
  if negative then -x else x

/-- The digits after a decimal point, if there is a point. -/
def fraction? : List Char → Option (Option (List Char) × List Char)
  | '.' :: rest => (digitRun? isDecimal rest).map fun (digits, rest) => (some digits, rest)
  | rest => some (none, rest)

/-- The digits of an exponent, with its sign. -/
def exponentDigits? : List Char → Option (Int × List Char)
  | '-' :: rest => (digitRun? isDecimal rest).map fun (digits, rest) => (-(ofDigits digits), rest)
  | '+' :: rest => (digitRun? isDecimal rest).map fun (digits, rest) => (ofDigits digits, rest)
  | rest => (digitRun? isDecimal rest).map fun (digits, rest) => (ofDigits digits, rest)

/-- An exponent, if there is one. -/
def exponent? : List Char → Option (Option Int × List Char)
  | 'e' :: rest | 'E' :: rest => (exponentDigits? rest).map fun (e, rest) => (some e, rest)
  | rest => some (none, rest)

/-- The digits before a decimal point: a zero alone, or digits that start with another one. -/
def leadingDigits? : List Char → Option (List Char × List Char)
  | '0' :: rest => some (['0'], rest)
  | cs => digitRun? isDecimal cs

/-- A decimal number after its sign. A float above the largest one is refused. -/
def decimal? (negative : Bool) (cs : List Char) : Option (Number × List Char) := do
  let (digits, rest) ← leadingDigits? cs
  let (places, rest) ← fraction? rest
  let (exponent, rest) ← exponent? rest
  match places, exponent with
  | none, none =>
    let n : Int := ofDigits digits
    return (← whole? (if negative then -n else n), rest)
  | _, _ =>
    let places := places.getD []
    let x := decimalFloat negative (ofDigits (digits ++ places)) (exponent.getD 0 - places.length)
    if x == 1 / 0 then none else return (.float x, rest)

/-- A number after its sign. -/
def unsigned? (negative : Bool) : List Char → Option (Number × List Char)
  | 'i' :: 'n' :: 'f' :: rest => some (.float (if negative then -(1 / 0) else 1 / 0), rest)
  | 'n' :: 'a' :: 'n' :: rest => some (.float (0 / 0), rest)
  | cs => decimal? negative cs

/-- A number. -/
def number? : List Char → Option (Number × List Char)
  | '0' :: 'x' :: rest => inBase? 16 rest
  | '0' :: 'o' :: rest => inBase? 8 rest
  | '0' :: 'b' :: rest => inBase? 2 rest
  | '+' :: rest => unsigned? false rest
  | '-' :: rest => unsigned? true rest
  | cs => unsigned? false cs

end LockOrder.Toml
