import LockOrder.Number.Basic
import LockOrder.Number.Shortest

/-!
# Floats as text

The digits of a float are laid out in one of two ways. Settings and drawings use positional
notation throughout and show a whole number without a point. Messages about JSON text keep a
point in every number, and change to scientific notation for very large and very small ones.

## Main definitions

* `Number.positional` — digits with a decimal point in its place
* `Number.scientific` — one digit before the point, and an exponent
* `Number.plainText` — the layout of settings and drawings
* `Number.pointed` — the layout of messages about JSON text
-/

namespace LockOrder.Number

/-- The characters before and after the decimal point of a decimal. -/
def pointSplit (d : Scaled) : List Char × List Char :=
  let cs := Text.digits d.digits
  match d.exponent with
  | .ofNat k => (cs ++ List.replicate k '0', [])
  | .negSucc k =>
    let places := k + 1
    if places < cs.length then (cs.take (cs.length - places), cs.drop (cs.length - places))
    else (['0'], List.replicate (places - cs.length) '0' ++ cs)

/-- A decimal in positional notation. A whole number has `whole` after it. -/
def positional (whole : List Char) (d : Scaled) : List Char :=
  match pointSplit d with
  | (before, []) => before ++ whole
  | (before, after) => before ++ '.' :: after

/-- The exponent of the first digit of a decimal. -/
def leadingExponent (d : Scaled) : Int := d.exponent + ((Text.digits d.digits).length - 1 : Nat)

/-- A decimal in scientific notation: one digit before the point, and a signed exponent. -/
def scientific (d : Scaled) : List Char :=
  let mantissa :=
    match Text.digits d.digits with
    | c :: [] => [c]
    | c :: cs => c :: '.' :: cs
    | [] => []
  let e := leadingExponent d
  mantissa ++ 'e' :: (if e < 0 then '-' else '+') :: Text.digits e.natAbs

/-- How floats are laid out. -/
structure Layout where
  /-- What follows a whole number. -/
  whole : List Char
  /-- The leading exponents that are written positionally, if not all are. -/
  positionalRange : Option (Int × Int)
  /-- Which of two equally near decimals is taken. -/
  tie : Tie

/-- The text of a finite positive float under a layout. -/
def Layout.positiveText (l : Layout) (bits : Nat) : List Char :=
  let d := shortest l.tie (.ofBits bits)
  match l.positionalRange with
  | none => positional l.whole d
  | some (low, high) =>
    if low ≤ leadingExponent d ∧ leadingExponent d < high then positional l.whole d
    else scientific d

/-- The text of a float, given by its bits, under a layout. -/
def Layout.text (l : Layout) (bits : UInt64) : String :=
  let sign := if signedBound ≤ bits.toNat then ['-'] else []
  let magnitude := bits.toNat % signedBound
  if 2047 * hiddenBit < magnitude then "NaN"
  else if magnitude = 2047 * hiddenBit then String.ofList (sign ++ ['i', 'n', 'f'])
  else if magnitude = 0 then String.ofList (sign ++ '0' :: l.whole)
  else String.ofList (sign ++ l.positiveText magnitude)

/-- Positional throughout, whole numbers without a point, a tie upwards. -/
def plain : Layout := ⟨[], none, .up⟩

/-- Positional from `1e-5` to below `1e16`, always with a point there, a tie to even. -/
def pointed : Layout := ⟨['.', '0'], some (-5, 16), .even⟩

/-- The text of a float in settings and drawings. -/
def plainText (x : Float) : String := plain.text x.toBits

end LockOrder.Number
