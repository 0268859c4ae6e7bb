import LockOrder.Json.Reader

/-!
# JSON strings

A string is read byte by byte up to its closing quote: escapes are replaced by the UTF-8 bytes
of what they stand for, and control characters are refused. Only then its bytes are taken as
UTF-8. A string that nobody looks at is passed over without these last checks.

## Main definitions

* `Json.stringBody` — reads a string after its opening quote
* `Json.skipStringBody` — passes over one
-/

namespace LockOrder.Json

/-- The value of a hexadecimal digit. -/
def hexDigit? (b : UInt8) : Option Nat :=
  if 0x30 ≤ b && b ≤ 0x39 then some (b.toNat - 0x30)
  else if 0x61 ≤ b && b ≤ 0x66 then some (b.toNat - 0x57)
  else if 0x41 ≤ b && b ≤ 0x46 then some (b.toNat - 0x37)
  else none

/-- Reads four hexadecimal digits. -/
def hexCode : Reader Nat := do
  let a ← next
  let b ← next
  let c ← next
  let d ← next
  match hexDigit? a, hexDigit? b, hexDigit? c, hexDigit? d with
  | some a, some b, some c, some d => return ((a * 16 + b) * 16 + c) * 16 + d
  | _, _, _, _ => fail .syntaxError

/-- Reads the code point of an escape after its `u`. A code point past `U+FFFF` is written as two
escapes, and half of such a pair alone is refused. -/
def escapedCodePoint : Reader Nat := do
  let high ← hexCode
  if 0xDC00 ≤ high ∧ high ≤ 0xDFFF then fail .syntaxError
  else if high < 0xD800 ∨ 0xDBFF < high then return high
  else
    literal [0x5C, 0x75]
    let low ← hexCode
    if 0xDC00 ≤ low ∧ low ≤ 0xDFFF then
      return (high - 0xD800) * 0x400 + (low - 0xDC00) + 0x10000
    else fail .syntaxError

/-- The byte that a one-letter escape stands for. -/
def shortEscape? (b : UInt8) : Option UInt8 :=
  match b with
  | 0x22 => some 0x22
  | 0x5C => some 0x5C
  | 0x2F => some 0x2F
  | 0x62 => some 0x08
  | 0x66 => some 0x0C
  | 0x6E => some 0x0A
  | 0x72 => some 0x0D
  | 0x74 => some 0x09
  | _ => none

/-- Reads an escape after its backslash and gives the bytes that it stands for. -/
def escapeBytes : Reader (List UInt8) := do
  let b ← next
  if b = 0x75 then return String.utf8EncodeChar (Char.ofNat (← escapedCodePoint))
  else
    match shortEscape? b with
    | some c => return [c]
    | none => fail .syntaxError

/-- Reads the bytes of a string up to and with its closing quote. `acc` holds the bytes so far,
the latest first. -/
def stringBytes : List UInt8 → List UInt8 → Reader (List UInt8)
  | [], _ => refuse
  | _ :: marks, acc => do
    let b ← next
    if b = 0x22 then return acc.reverse
    else if b = 0x5C then stringBytes marks ((← escapeBytes).reverse ++ acc)
    else if b < 0x20 then fail .syntaxError
    else stringBytes marks (b :: acc)

/-- Reads a string after its opening quote. -/
def stringBody : Reader String := do
  let bytes ← stringBytes (← ruler) []
  match String.fromUTF8? ⟨bytes.toArray⟩ with
  | some s => return s
  | none => fail .syntaxError

/-- Passes over an escape after its backslash. -/
def skipEscape : Reader Unit := do
  let b ← next
  if b = 0x75 then
    let _ ← hexCode
  else
    match shortEscape? b with
    | some _ => return ()
    | none => fail .syntaxError

/-- Passes over the bytes of a string up to and with its closing quote. -/
def skipStringBytes : List UInt8 → Reader Unit
  | [] => refuse
  | _ :: marks => do
    let b ← next
    if b = 0x22 then return ()
    else if b = 0x5C then
      skipEscape
      skipStringBytes marks
    else if b < 0x20 then fail .syntaxError
    else skipStringBytes marks

/-- Passes over a string after its opening quote. -/
def skipStringBody : Reader Unit := do skipStringBytes (← ruler)

end LockOrder.Json
