import LockOrder.Json.Number
import LockOrder.Json.Text

/-!
# Passing over values

A member that nobody asked for may hold any value. It is passed over by its syntax alone, with a
stack of the brackets that are open, so that nesting may be arbitrarily deep.

## Main definitions

* `Json.Bracket` — an open bracket
* `Json.skipValue` — passes over a value
-/

namespace LockOrder.Json

/-- A bracket that is open. -/
inductive Bracket where
  /-- The bracket of an array. -/
  | list
  /-- The brace of an object. -/
  | object
deriving DecidableEq, Repr

/-- The byte that closes a bracket. -/
def Bracket.closing : Bracket → UInt8
  | .list => 0x5D
  | .object => 0x7D

/-- Passes over the key of a member and the colon, in an object; in an array there is none. -/
def skipKey : Bracket → Reader Unit
  | .list => pure ()
  | .object => do
    if (← skipBlanksTo) = 0x22 then advance else fail .syntaxError
    skipStringBody
    if (← skipBlanksTo) = 0x3A then advance else fail .syntaxError

/-- Passes over a number, a string or a word, or opens a bracket. -/
def skipStart : Reader (Option Bracket) := do
  let b ← skipBlanksTo
  match b with
  | 0x6E => literal [0x6E, 0x75, 0x6C, 0x6C]; return none
  | 0x74 => literal [0x74, 0x72, 0x75, 0x65]; return none
  | 0x66 => literal [0x66, 0x61, 0x6C, 0x73, 0x65]; return none
  | 0x2D => advance; skipNumber; return none
  | 0x22 => advance; skipStringBody; return none
  | 0x5B => advance; return some .list
  | 0x7B => advance; return some .object
  | b => if isDigit b then skipNumber; return none else fail .syntaxError

/-- Passes over the rest of a value inside the given brackets, the innermost first. `opened` tells
that the innermost one was just opened, so that no comma comes before its next item. -/
def skipLoop : List UInt8 → Bool → List Bracket → Reader Unit
  | _, _, [] => pure ()
  | [], _, _ :: _ => refuse
  | _ :: marks, opened, bracket :: outer => do
    let b ← skipBlanksTo
    if b = bracket.closing then
      advance
      skipLoop marks false outer
    else
      if !opened then
        if b = 0x2C then advance else fail .syntaxError
      skipKey bracket
      match ← skipStart with
      | some inner => skipLoop marks true (inner :: bracket :: outer)
      | none => skipLoop marks false (bracket :: outer)

/-- Passes over a value. -/
def skipValue : Reader Unit := do
  match ← skipStart with
  | some bracket => skipLoop (← ruler) true [bracket]
  | none => return ()

end LockOrder.Json
