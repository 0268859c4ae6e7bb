/-!
# Numbers

Indexes, counts, ranks and the numbers of threads and locks are words of 64 bits; line numbers are
words of 32 bits. They are kept as natural numbers, so their bounds matter only where they are read.
Counts are added up over lists.

Node names, edge names, counts and line numbers are written in decimal without leading zeros. A
number is read from ASCII digits only, with leading zeros allowed. Locks without a name are shown
by their number in hexadecimal.

## Main definitions

* `wordBound`, `signedBound`, `lineBound` — where words of each kind end
* `total` — the sum of a list of counts
* `Text.digits`, `Text.decimal` — the decimal digits of a number, and those digits as text
* `Text.hexDigits` — the lowercase hexadecimal digits of a number
* `Text.digitValue?`, `Text.hexValue?` — the value of an ASCII digit
* `Text.natOfDigits?` — the number that a list of ASCII digits spells

## Main results

* `Text.hexDigits_eq_toDigits` — what hexadecimal digits are
-/

namespace LockOrder

/-! ### Words and totals -/

/-- Words of 64 bits are below this bound, which is two to the power of 64. -/
def wordBound : Nat := 0x10000000000000000

/-- Words of 64 bits with a sign are below this bound, two to the power of 63, and not below its
negative. -/
def signedBound : Nat := 0x8000000000000000

/-- Line numbers are below this bound, which is two to the power of 32. -/
def lineBound : Nat := 0x100000000

/-- The sum of a list of counts. -/
def total : List Nat → Nat
  | [] => 0
  | n :: rest => n + total rest

@[simp]
theorem total_nil : total [] = 0 := rfl

@[simp]
theorem total_cons (n : Nat) (rest : List Nat) : total (n :: rest) = n + total rest := rfl

/-- The total of two lists in a row is the sum of their totals. -/
@[simp]
theorem total_append (xs ys : List Nat) : total (xs ++ ys) = total xs + total ys := by
  induction xs with
  | nil => simp
  | cons n xs ih => simp [ih, Nat.add_assoc]

/-! ### Digits -/

namespace Text

/-- The character of a digit below sixteen. -/
def digitChar (d : Nat) : Char :=
  if d < 10 then Char.ofNat (0x30 + d) else Char.ofNat (0x57 + d)

/-- The digits of `n` in base ten, most significant first; zero has the single digit `0`. -/
def digits (n : Nat) : List Char :=
  if n < 10 then [digitChar n] else digits (n / 10) ++ [digitChar (n % 10)]
termination_by n
decreasing_by omega

/-- The digits of `n` in base sixteen, most significant first, in lowercase. -/
def hexDigits (n : Nat) : List Char :=
  if n < 16 then [digitChar n] else hexDigits (n / 16) ++ [digitChar (n % 16)]
termination_by n
decreasing_by omega

theorem digitChar_eq {d : Nat} (hd : d < 16) : digitChar d = Nat.digitChar d := by
  revert d
  decide

/-- Hexadecimal digits are those of positional notation in base sixteen. -/
theorem hexDigits_eq_toDigits (n : Nat) : hexDigits n = Nat.toDigits 16 n := by
  fun_induction hexDigits n with
  | case1 n hlt => rw [Nat.toDigits_of_lt_base hlt, digitChar_eq hlt]
  | case2 n hge ih =>
    rw [Nat.toDigits_of_base_le (by decide) (Nat.not_lt.mp hge), ih,
      digitChar_eq (Nat.mod_lt n (by decide))]

/-- `n` in decimal. -/
def decimal (n : Nat) : String := String.ofList (digits n)

/-- The value of an ASCII digit. -/
def digitValue? (c : Char) : Option Nat :=
  if '0' ≤ c ∧ c ≤ '9' then some (c.toNat - 0x30) else none

/-- The value of an ASCII hexadecimal digit in either case. -/
def hexValue? (c : Char) : Option Nat :=
  if '0' ≤ c ∧ c ≤ '9' then some (c.toNat - 0x30)
  else if 'a' ≤ c ∧ c ≤ 'f' then some (c.toNat - 0x57)
  else if 'A' ≤ c ∧ c ≤ 'F' then some (c.toNat - 0x37)
  else none

/-- The number spelled by `cs` after the digits of `acc`, if every character is a digit of the
given base. -/
def natOfDigitsFrom? (value? : Char → Option Nat) (base acc : Nat) : List Char → Option Nat
  | [] => some acc
  | c :: cs =>
    match value? c with
    | some d => natOfDigitsFrom? value? base (acc * base + d) cs
    | none => none

/-- The number spelled by a list of ASCII digits; the empty list spells zero. -/
def natOfDigits? (cs : List Char) : Option Nat := natOfDigitsFrom? digitValue? 10 0 cs

end Text

end LockOrder
