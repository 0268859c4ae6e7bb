import LockOrder.Number.Basic

/-!
# Shortest decimal digits of a float

A float is written with the fewest decimal digits that read back to the same value, and of
those with the digits nearest to it. All decisions are made on exact fractions: the float is
`m * 2 ^ q`, the reals that round to it form an interval around it (with its ends if `m` is
even), and the coarsest decimal grid with a point in the interval gives the digits.

## Main definitions

* `Number.Binary` — a positive float as a fraction with its interval
* `Number.Scaled` — a decimal `digits * 10 ^ exponent`
* `Number.shortest` — the shortest decimal of a float
* `Number.Tie` — which of two equally near decimals is taken
-/

namespace LockOrder.Number

/-- A decimal `digits * 10 ^ exponent`. -/
structure Scaled where
  /-- The digits as a number. -/
  digits : Nat
  /-- The power of ten. -/
  exponent : Int
deriving DecidableEq, Repr, Inhabited

/-- A positive float as a fraction, with the interval of the reals that round to it. -/
structure Binary where
  /-- The numerator of the value. -/
  value : Nat
  /-- The numerator of the lower end. -/
  lower : Nat
  /-- The numerator of the upper end. -/
  upper : Nat
  /-- The denominator of all three. -/
  denominator : Nat
  /-- Whether the ends belong to the interval. -/
  closed : Bool
deriving DecidableEq, Repr, Inhabited

/-- The leading bit of a significand that is not stored, two to the power of 52. -/
def hiddenBit : Nat := 0x10000000000000

namespace Binary

/-- The float `m * 2 ^ q`. The gap below the first float of a binade is half the gap above it;
`first` says whether this is one. -/
def ofParts (m : Nat) (q : Int) (first : Bool) : Binary :=
  let lower := 4 * m - (if first then 1 else 2)
  let upper := 4 * m + 2
  match q - 2 with
  | .ofNat k =>
    let power := Nat.pow 2 k
    ⟨4 * m * power, lower * power, upper * power, 1, m % 2 == 0⟩
  | .negSucc k => ⟨4 * m, lower, upper, Nat.pow 2 (k + 1), m % 2 == 0⟩

/-- The positive float with the given bits, the sign aside. -/
def ofBits (bits : Nat) : Binary :=
  let fraction := bits % hiddenBit
  let power : Nat := bits / hiddenBit % 2048
  if power = 0 then ofParts fraction (-1074) false
  else ofParts (hiddenBit + fraction) ((power : Int) - 1075) (fraction == 0 && 1 < power)

/-- Whether `numerator / b.denominator` rounds to the float. -/
def contains (b : Binary) (numerator : Nat) : Bool :=
  if b.closed then b.lower ≤ numerator && numerator ≤ b.upper
  else b.lower < numerator && numerator < b.upper

end Binary

/-- Which of two decimals is taken when a float lies halfway between them. -/
inductive Tie where
  /-- The larger one. -/
  | up
  /-- The one whose last digit is even. -/
  | even
deriving DecidableEq, Repr

/-- The nearer of the neighbours `n` and `n + 1` of `value / unit`, of those that qualify. -/
def pick (tie : Tie) (value unit n : Nat) (low high : Bool) : Option Nat :=
  match low, high with
  | false, false => none
  | true, false => some n
  | false, true => some (n + 1)
  | true, true =>
    let below := value - n * unit
    let above := (n + 1) * unit - value
    if below < above then some n
    else if above < below then some (n + 1)
    else
      match tie with
      | .up => some (n + 1)
      | .even => if n % 2 = 0 then some n else some (n + 1)

/-- The point of the grid of multiples of `10 ^ exponent` that is nearest to the float, if a
neighbour of the float on that grid rounds to it. -/
def onGrid (tie : Tie) (b : Binary) (exponent : Int) : Option Scaled :=
  -- Both the float and the grid are scaled to whole numbers.
  let scale := match exponent with | .ofNat _ => 1 | .negSucc k => Nat.pow 10 (k + 1)
  let step := match exponent with | .ofNat k => Nat.pow 10 k | .negSucc _ => 1
  let b := { b with
    value := b.value * scale, lower := b.lower * scale, upper := b.upper * scale }
  let unit := step * b.denominator
  let n := b.value / unit
  (pick tie b.value unit n (0 < n && b.contains (n * unit)) (b.contains ((n + 1) * unit))).map
    fun digits => ⟨digits, exponent⟩

/-- The shortest decimal of a positive float. The grids are tried from the coarsest one on that
could hold a digit of it; the finest is finer than any gap between floats. -/
def shortest (tie : Tie) (b : Binary) : Scaled :=
  let top := (Text.digits (b.value / b.denominator)).length
  ((List.range (top + 343)).findSome? fun (k : Nat) => onGrid tie b ((top : Int) - k)).getD ⟨0, 0⟩

end LockOrder.Number
