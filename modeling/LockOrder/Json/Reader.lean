import LockOrder.Json.Flaw

/-!
# Reading bytes

JSON text arrives as bytes that are looked at one by one. After the last of them the text is
either complete or cut off, and which of the two it is shows only when a byte is asked for that
is not there.

## Main definitions

* `Json.Feed` — the bytes still to come
* `Json.Reader` — a step of reading
* `Json.peek`, `Json.next`, `Json.skipBlanks` — the elementary steps
* `Json.literal` — a fixed word
-/

namespace LockOrder.Json

/-- The bytes still to come. -/
structure Feed where
  /-- The bytes. -/
  bytes : List UInt8
  /-- Why no more bytes follow, if that is a failure. -/
  cut : Option Cut
deriving DecidableEq, Repr, Inhabited

/-- A step of reading: it takes bytes off the feed, or finds a flaw. -/
abbrev Reader := StateT Feed (Except Flaw)

/-- Ends the reading. -/
def fail {α : Type} (flaw : Flaw) : Reader α := fun _ => .error flaw

/-- The next byte, which stays where it is. -/
def peek : Reader (Option UInt8) := fun feed =>
  match feed.bytes with
  | b :: _ => .ok (some b, feed)
  | [] =>
    match feed.cut with
    | none => .ok (none, feed)
    | some cause => .error (.cut cause)

/-- Takes off the byte that was peeked at. -/
def advance : Reader Unit := fun feed => .ok ((), { feed with bytes := feed.bytes.tail })

/-- The bytes still to come, as a ruler: a loop that takes at least one byte off the feed in each
step makes no more steps than the ruler has marks. -/
def ruler : Reader (List UInt8) := fun feed => .ok (feed.bytes, feed)

/-- Takes off the next byte; the end of the text is a syntax error. -/
def next : Reader UInt8 := do
  match ← peek with
  | some b => advance; return b
  | none => fail .syntaxError

/-- Refuses the byte that comes next, if any. -/
def refuse {α : Type} : Reader α := do
  let _ ← peek
  fail .syntaxError

/-- Whether a byte is JSON white space: a space, a tab, a line feed or a carriage return. -/
def isBlank (b : UInt8) : Bool := b = 0x20 || b = 0x09 || b = 0x0A || b = 0x0D

/-- Takes off leading white space and peeks at what follows. -/
def skipBlanks : Reader (Option UInt8) := fun feed =>
  peek { feed with bytes := feed.bytes.dropWhile isBlank }

/-- Skips white space and peeks at the byte that must follow. -/
def skipBlanksTo : Reader UInt8 := do
  match ← skipBlanks with
  | some b => return b
  | none => fail .syntaxError

/-- Takes off the given bytes. -/
def literal : List UInt8 → Reader Unit
  | [] => pure ()
  | b :: rest => do
    if (← next) = b then literal rest else fail .syntaxError

/-- Whether a byte is an ASCII digit. -/
def isDigit (b : UInt8) : Bool := 0x30 ≤ b && b ≤ 0x39

/-- Takes off leading digits and gives their values. -/
def digitRun : Reader (List Nat) := fun feed =>
  .ok ((feed.bytes.takeWhile isDigit).map fun b => b.toNat - 0x30,
    { feed with bytes := feed.bytes.dropWhile isDigit })

end LockOrder.Json
