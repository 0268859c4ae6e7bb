import LockOrder.Json.Reader
import LockOrder.Number.Basic

/-!
# JSON numbers

A number is a whole number when it is written without a fraction and an exponent and fits into
64 bits; the sign of a negative zero is kept, so that is no whole number. Every other number is
a float. A float has its first digits as a 64-bit significand and a power of ten, and is the
product or quotient of the two.

## Main definitions

* `Json.Numeral` — the parts of a written number
* `Json.Numeral.value` — what it stands for
* `Json.numeral` — reads a number
* `Json.skipNumber` — passes over a number
-/

namespace LockOrder.Json

/-- The parts of a number as written, the sign aside. -/
structure Numeral where
  /-- The digits before the point. -/
  whole : List Nat
  /-- The digits after the point; none if there is no point. -/
  fraction : List Nat
  /-- The exponent, if one is written. -/
  exponent : Option Int
deriving DecidableEq, Repr, Inhabited

/-- A decimal with a significand of 64 bits. -/
structure Significand where
  /-- The significand. -/
  value : Nat
  /-- The power of ten. -/
  exponent : Int
deriving DecidableEq, Repr, Inhabited

namespace Significand

/-- Appends the digits before a point. From the first one on that does not fit, digits only
raise the exponent. -/
def pushWhole : Significand → List Nat → Significand
  | s, [] => s
  | s, d :: ds =>
    if s.value * 10 + d < wordBound then pushWhole ⟨s.value * 10 + d, s.exponent⟩ ds
    else ⟨s.value, s.exponent + (ds.length + 1)⟩

/-- Appends the digits after a point, up to the first one that does not fit. -/
def pushFraction : Significand → List Nat → Significand
  | s, [] => s
  | s, d :: ds =>
    if s.value * 10 + d < wordBound then pushFraction ⟨s.value * 10 + d, s.exponent - 1⟩ ds
    else s

/-- Divides by a power of ten, in steps that a float can hold. -/
def divide : Nat → Float → Nat → Float
  | 0, _, _ => 0
  | steps + 1, x, e =>
    if e ≤ 308 then x / Float.ofScientific 1 false e
    else if x == 0 then x
    else divide steps (x / Float.ofScientific 1 false 308) (e - 308)

/-- The float that a decimal stands for; none if it is too large for one. -/
def toFloat? (s : Significand) : Option Float :=
  let x := (UInt64.ofNat s.value).toFloat
  match s.exponent with
  | .ofNat e =>
    if s.value = 0 then some x
    else if 308 < e then none
    else
      let y := x * Float.ofScientific 1 false e
      if y.isInf then none else some y
  | .negSucc e => some (divide 4 x (e + 1))

end Significand

/-- The number that digits spell. -/
def ofDigits (ds : List Nat) : Nat := ds.foldl (fun n d => n * 10 + d) 0

/-- What a number stands for: whole, or a float; none if it is too large for one. -/
def Numeral.value (negative : Bool) (n : Numeral) : Option Found :=
  let whole := ofDigits n.whole
  if n.fraction.isEmpty && n.exponent.isNone && !negative && whole < wordBound then
    some (.integer whole)
  else if n.fraction.isEmpty && n.exponent.isNone && negative && 0 < whole &&
      whole ≤ signedBound then
    some (.integer (-whole))
  else
    let s := (Significand.pushWhole ⟨0, 0⟩ n.whole).pushFraction n.fraction
    let s := { s with exponent := s.exponent + n.exponent.getD 0 }
    s.toFloat?.map fun x => .float (if negative then -x else x).toBits

/-- Reads the digits before a point. A leading zero stands alone. -/
def wholeDigits : Reader (List Nat) := do
  match ← digitRun with
  | [] => refuse
  | 0 :: _ :: _ => fail .syntaxError
  | ds => return ds

/-- Reads at least one digit. -/
def someDigits : Reader (List Nat) := do
  match ← digitRun with
  | [] => refuse
  | ds => return ds

/-- Reads a point and the digits after it, if there is a point. -/
def fractionDigits : Reader (List Nat) := do
  match ← peek with
  | some 0x2E => advance; someDigits
  | _ => return []

/-- Reads an exponent, if there is one. -/
def exponentPart : Reader (Option Int) := do
  match ← peek with
  | some 0x65 | some 0x45 =>
    advance
    match ← peek with
    | some 0x2D => advance; return some (-(ofDigits (← someDigits)))
    | some 0x2B => advance; return some (ofDigits (← someDigits))
    | _ => return some (ofDigits (← someDigits))
  | _ => return none

/-- Reads a number after its sign. Only what comes next shows that it has ended. -/
def numeral : Reader Numeral := do
  let whole ← wholeDigits
  let fraction ← fractionDigits
  let exponent ← exponentPart
  let _ ← peek
  return ⟨whole, fraction, exponent⟩

/-- Reads a number after its sign and gives what it stands for. -/
def number (negative : Bool) : Reader Found := do
  match (← numeral).value negative with
  | some found => return found
  | none => fail .syntaxError

/-- Passes over a number after its sign. Its size does not matter. -/
def skipNumber : Reader Unit := do
  let _ ← numeral

end LockOrder.Json
