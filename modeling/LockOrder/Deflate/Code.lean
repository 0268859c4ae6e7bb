import LockOrder.Deflate.Bits
import LockOrder.Number.Basic

/-!
# Codes

A code assigns a word of bits to each symbol that it uses, so that no word continues another. Words
are given by their lengths alone: shorter words come first, words of one length are in the order of
their symbols, and each is the successor of the one before it.

A code must use every possible sequence of bits. A code with at most one symbol is let through where
data may do without it.

## Main definitions

* `Deflate.Code` — a code as a tree of its words
* `Deflate.Code.decode` — reads a symbol
* `Deflate.words` — the words that go with given lengths
* `Deflate.Code.ofLengths` — the code of given lengths
-/

namespace LockOrder.Deflate

/-- The words of a code as paths from the root of a tree. -/
inductive Code where
  /-- No word goes this way. -/
  | vacant
  /-- The end of the word of a symbol. -/
  | leaf (symbol : Nat)
  /-- Words that go on with a zero and with a one. -/
  | fork (zero one : Code)
deriving DecidableEq, Repr, Inhabited

namespace Code

/-- Reads the word of a symbol. -/
def decode : Code → BitReader Nat
  | .vacant => corrupt
  | .leaf symbol => pure symbol
  | .fork zero one => do
    let b ← bit
    if b then one.decode else zero.decode

/-- Adds the word of a symbol. -/
def insert (symbol : Nat) : List Bool → Code → Code
  | [], _ => .leaf symbol
  | false :: word, .fork zero one => .fork (zero.insert symbol word) one
  | true :: word, .fork zero one => .fork zero (one.insert symbol word)
  | false :: word, _ => .fork (insert symbol word .vacant) .vacant
  | true :: word, _ => .fork .vacant (insert symbol word .vacant)

end Code

/-- The longest word of a code. -/
def maxLength : Nat := 15

/-- The lowest `length` bits of a number, most significant first. -/
def wordOf (length code : Nat) : List Bool :=
  (List.range length).map fun i => code.testBit (length - 1 - i)

/-- The words of symbols that are sorted by length, where `code` is the next free word of `length`
bits. -/
def wordsFrom (code length : Nat) : List (Nat × Nat) → List (List Bool × Nat)
  | [] => []
  | (n, symbol) :: rest =>
    let next := code * Nat.pow 2 (n - length)
    (wordOf n next, symbol) :: wordsFrom (next + 1) n rest

/-- The used symbols with the lengths of their words, shorter words first. -/
def ranked (lengths : List Nat) : List (Nat × Nat) :=
  (List.range' 1 maxLength).flatMap fun n => lengths.zipIdx.filter fun entry => entry.1 = n

/-- The words that go with given lengths; a symbol of length zero is not used. -/
def words (lengths : List Nat) : List (List Bool × Nat) := wordsFrom 0 0 (ranked lengths)

/-- The share of all sequences of `maxLength` bits that words of the given lengths take up. -/
def share (lengths : List Nat) : Nat :=
  total ((ranked lengths).map fun entry => Nat.pow 2 (maxLength - entry.1))

/-- Whether words of the given lengths use up all sequences of bits, or there is at most one of them
and `sparse` lets that pass. -/
def usable (sparse : Bool) (lengths : List Nat) : Bool :=
  share lengths = Nat.pow 2 maxLength || (sparse && (ranked lengths).length ≤ 1)

/-- The code of given lengths. -/
def Code.ofLengths (sparse : Bool) (lengths : List Nat) : Option Code :=
  if usable sparse lengths then
    some ((words lengths).foldl (fun code entry => code.insert entry.2 entry.1)
      (.fork .vacant .vacant))
  else none

end LockOrder.Deflate
