/-!
# Call stacks

A call stack is a list of frames, innermost first. A frame is a source position that refers to
a file and a function of a stack table, or, when the program counter could not be resolved, the
text that says why.

## Main definitions

* `Pos` — a frame
* `Stack` — a list of frames
* `Stack.hash` — a 64-bit polynomial hash, used to sort stacks into buckets
-/

namespace LockOrder

/-- A frame of a call stack. -/
inductive Pos where
  /-- A line of a function, by file and function index. -/
  | resolved (file func line : Nat)
  /-- A frame without a position, and why. -/
  | unresolved (text : String)
deriving DecidableEq, Repr, Inhabited

/-- A call stack, innermost frame first. -/
structure Stack where
  /-- The frames, innermost first. -/
  frames : List Pos
deriving DecidableEq, Repr, Inhabited

namespace Stack

/-- The number of frames. -/
def size (s : Stack) : Nat := s.frames.length

/-- The frame that was running. -/
def innermost? (s : Stack) : Option Pos := s.frames.head?

/-- The frame that the thread started in. -/
def outermost? (s : Stack) : Option Pos := s.frames.getLast?

/-- One step of the hash: multiply and add, modulo `2 ^ 64`. -/
def mix (h x : UInt64) : UInt64 := h * 31 + x

/-- Extends a hash by a frame: by three numbers, or by the bytes of a text. -/
def hashPos (h : UInt64) : Pos → UInt64
  | .resolved file func line =>
    mix (mix (mix h (UInt64.ofNat file)) (UInt64.ofNat func)) (UInt64.ofNat line)
  | .unresolved text => text.toUTF8.toList.foldl (fun h b => mix h b.toUInt64) h

/-- The polynomial hash of a stack. Different stacks may share a hash. -/
def hash (s : Stack) : UInt64 := s.frames.foldl hashPos 0

end Stack

end LockOrder
