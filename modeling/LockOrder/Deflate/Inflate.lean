import LockOrder.Deflate.Code

/-!
# Inflating and storing

Compressed data is a sequence of blocks. A block holds octets as they are, or symbols in a code that
is fixed or comes with the block. A symbol is an octet, a copy of earlier output, or the end of the
block. Copies may reach back before the first octet, where all is zero.

Inflating keeps, with each octet of output, how many octets of input had to be read for it, and the
same for the end of the data. Whoever feeds the input piece by piece knows from that what is there
after each piece.

Data is written as blocks that hold the octets as they are: nothing is gained in size, and every
reader of compressed data reads them.

## Main definitions

* `Deflate.Octet` — an octet of output
* `Deflate.Ending` — how the data ends
* `Deflate.inflate` — what compressed data stands for
* `Deflate.store` — compressed data that stands for given octets
-/

namespace LockOrder.Deflate

/-! ### Inflating -/

/-- An octet of output. -/
structure Octet where
  /-- The octet. -/
  value : UInt8
  /-- How many octets of input had to be read for it. -/
  need : Nat
deriving DecidableEq, Repr, Inhabited

/-- How the data ends. -/
inductive Ending where
  /-- The last block ends in the input octet of this number. -/
  | complete (need : Nat)
  /-- The data is found corrupt in the input octet of this number. -/
  | corrupt (need : Nat)
  /-- The input stops before the last block ends. -/
  | starved
deriving DecidableEq, Repr

/-- What compressed data stands for. -/
structure Inflated where
  /-- The octets of output. -/
  output : Array Octet
  /-- How the data ends. -/
  ending : Ending
deriving DecidableEq, Repr

/-- Output so far, and how reading goes on after it. -/
abbrev Progress (α : Type) := Array Octet × Except Halt (α × Bits)

/-! ### Symbols -/

/-- What a symbol with its extra bits stands for. -/
inductive Token where
  /-- An octet. -/
  | literal (b : UInt8)
  /-- A copy of so many octets from so far back. -/
  | copy (length distance : Nat)
  /-- The end of the block. -/
  | finish
deriving DecidableEq, Repr

/-- The codes of a block. -/
structure Codes where
  /-- The code of octets, lengths and the end of the block. -/
  main : Code
  /-- The code of distances. -/
  distance : Code

/-- The shortest length and the number of extra bits of each length symbol from 257 on. -/
def lengthRanges : List (Nat × Nat) := [
  (3, 0), (4, 0), (5, 0), (6, 0), (7, 0), (8, 0), (9, 0), (10, 0), (11, 1), (13, 1), (15, 1),
  (17, 1), (19, 2), (23, 2), (27, 2), (31, 2), (35, 3), (43, 3), (51, 3), (59, 3), (67, 4),
  (83, 4), (99, 4), (115, 4), (131, 5), (163, 5), (195, 5), (227, 5), (258, 0)]

/-- The shortest distance and the number of extra bits of each distance symbol. -/
def distanceRanges : List (Nat × Nat) := [
  (1, 0), (2, 0), (3, 0), (4, 0), (5, 1), (7, 1), (9, 2), (13, 2), (17, 3), (25, 3), (33, 4),
  (49, 4), (65, 5), (97, 5), (129, 6), (193, 6), (257, 7), (385, 7), (513, 8), (769, 8),
  (1025, 9), (1537, 9), (2049, 10), (3073, 10), (4097, 11), (6145, 11), (8193, 12), (12289, 12),
  (16385, 13), (24577, 13)]

/-- Reads a number from the range at `index`: its least value, and extra bits. -/
def ranged (ranges : List (Nat × Nat)) (index : Nat) : BitReader Nat :=
  match ranges[index]? with
  | none => corrupt
  | some (least, extra) => do return least + (← number extra)

/-- Reads a symbol with its extra bits. -/
def token (codes : Codes) : BitReader Token := do
  let symbol ← codes.main.decode
  if symbol < 256 then return .literal (.ofNat symbol)
  else if symbol = 256 then return .finish
  else
    let length ← ranged lengthRanges (symbol - 257)
    let distance ← ranged distanceRanges (← codes.distance.decode)
    return .copy length distance

/-- The output octet so far back; before the first one all is zero. -/
def lookBack (output : Array Octet) (distance : Nat) : UInt8 :=
  if distance ≤ output.size then
    match output[output.size - distance]? with
    | some octet => octet.value
    | none => 0
  else 0

/-- Copies output from so far back, octet by octet. -/
def copyBack (need distance : Nat) : Nat → Array Octet → Array Octet
  | 0, output => output
  | n + 1, output => copyBack need distance n (output.push ⟨lookBack output distance, need⟩)

/-- Inflates symbols up to the end of the block. Every symbol takes a bit, so that `fuel` above the
number of bits suffices. -/
def inflateSymbols (codes : Codes) : Nat → Array Octet → Bits → Progress Unit
  | 0, output, _ => (output, .error .starved)
  | fuel + 1, output, s =>
    match token codes s with
    | .error halt => (output, .error halt)
    | .ok (.literal b, s) => inflateSymbols codes fuel (output.push ⟨b, s.octetsUsed⟩) s
    | .ok (.copy length distance, s) =>
      inflateSymbols codes fuel (copyBack s.octetsUsed distance length output) s
    | .ok (.finish, s) => (output, .ok ((), s))

/-! ### The codes of a block -/

/-- The lengths of the fixed code of octets, lengths and the end of the block. -/
def fixedLengths : List Nat :=
  List.replicate 144 8 ++ List.replicate 112 9 ++ List.replicate 24 7 ++ List.replicate 8 8

/-- The fixed codes. -/
def fixedCodes : Option Codes := do
  return ⟨← Code.ofLengths true fixedLengths, ← Code.ofLengths true (List.replicate 32 5)⟩

/-- The order in which the lengths of the code of lengths are written. -/
def lengthOrder : List Nat := [16, 17, 18, 0, 8, 7, 9, 6, 10, 5, 11, 4, 12, 3, 13, 2, 14, 1, 15]

/-- Reads so many numbers of three bits. -/
def shortNumbers : Nat → BitReader (List Nat)
  | 0 => pure []
  | n + 1 => do
    let first ← number 3
    return first :: (← shortNumbers n)

/-- The lengths of the code of lengths, symbol by symbol, from those in writing order. -/
def orderedLengths (written : List Nat) : List Nat :=
  (List.range lengthOrder.length).map fun symbol =>
    ((lengthOrder.zip written).lookup symbol).getD 0

/-- Reads lengths of words until there are `total`; `found` holds those before, the last one first.
Every step adds a length, so that `fuel` above `total` suffices. -/
def wordLengths (code : Code) (total : Nat) : Nat → List Nat → BitReader (List Nat)
  | 0, _ => corrupt
  | fuel + 1, found => do
    if found.length < total then
      let symbol ← code.decode
      if symbol < 16 then wordLengths code total fuel (symbol :: found)
      else if symbol = 16 then
        match found with
        | [] => corrupt
        | last :: _ =>
          let count ← number 2
          wordLengths code total fuel (List.replicate (count + 3) last ++ found)
      else
        let count ← if symbol = 17 then (· + 3) <$> number 3 else (· + 11) <$> number 7
        wordLengths code total fuel (List.replicate count 0 ++ found)
    else if found.length = total then return found.reverse
    else corrupt

/-- The code of given lengths, which must be usable. -/
def codeOf (sparse : Bool) (lengths : List Nat) : BitReader Code :=
  match Code.ofLengths sparse lengths with
  | some code => pure code
  | none => corrupt

/-- Reads the codes that come with a block. -/
def blockCodes : BitReader Codes := do
  let mainCount := (← number 5) + 257
  let distanceCount := (← number 5) + 1
  let lengthCount := (← number 4) + 4
  if 286 < mainCount || 30 < distanceCount then corrupt
  else
    let lengthCode ← codeOf false (orderedLengths (← shortNumbers lengthCount))
    let total := mainCount + distanceCount
    let lengths ← wordLengths lengthCode total (total + 1) []
    let distance ← codeOf true (lengths.drop mainCount)
    let main ← codeOf true (lengths.take mainCount)
    return ⟨main, distance⟩

/-! ### Blocks -/

/-- Reads the number of octets in a block that holds them as they are; it is written twice, the
second time with all bits flipped. -/
def plainLength : BitReader Nat := do
  align
  let length ← number 16
  let flipped ← number 16
  if length + flipped = 0xFFFF then return length else corrupt

/-- Takes so many octets as they are. -/
def inflatePlain : Nat → Array Octet → Bits → Progress Unit
  | 0, output, s => (output, .ok ((), s))
  | n + 1, output, s =>
    match number 8 s with
    | .error halt => (output, .error halt)
    | .ok (b, s) => inflatePlain n (output.push ⟨.ofNat b, s.octetsUsed⟩) s

/-- How a block is written. -/
inductive Layout where
  /-- So many octets as they are. -/
  | plain (length : Nat)
  /-- Symbols. -/
  | coded (codes : Codes)

/-- Reads the head of a block: whether it is the last one, and how it is written. -/
def blockHead : BitReader (Bool × Layout) := do
  let last ← bit
  match ← number 2 with
  | 0 => return (last, .plain (← plainLength))
  | 1 =>
    match fixedCodes with
    | some codes => return (last, .coded codes)
    | none => corrupt
  | 2 => return (last, .coded (← blockCodes))
  | _ => corrupt

/-- Inflates a block and tells whether it is the last one. -/
def inflateBlock (output : Array Octet) (s : Bits) : Progress Bool :=
  match blockHead s with
  | .error halt => (output, .error halt)
  | .ok ((last, layout), s) =>
    let (output, result) :=
      match layout with
      | .plain length => inflatePlain length output s
      | .coded codes => inflateSymbols codes (s.rest.length + 1) output s
    (output, result.map fun reached => (last, reached.2))

/-- How the data ends where reading stops. -/
def Halt.ending : Halt → Ending
  | .starved => .starved
  | .corrupt used => .corrupt ((used + 7) / 8)

/-- Inflates block after block up to the last one. Every block takes a bit, so that `fuel` above the
number of bits suffices. -/
def inflateBlocks : Nat → Array Octet → Bits → Inflated
  | 0, output, _ => ⟨output, .starved⟩
  | fuel + 1, output, s =>
    match inflateBlock output s with
    | (output, .error halt) => ⟨output, halt.ending⟩
    | (output, .ok (true, s)) => ⟨output, .complete s.octetsUsed⟩
    | (output, .ok (false, s)) => inflateBlocks fuel output s

/-- What compressed data stands for. -/
def inflate (bytes : List UInt8) : Inflated :=
  let bits := Bits.ofOctets bytes
  inflateBlocks (bits.rest.length + 1) #[] bits

/-! ### Storing -/

/-- The most octets in a block. -/
def maxPlain : Nat := 65535

/-- A number of two octets, least significant first. -/
def twoOctets (n : Nat) : List UInt8 := [.ofNat (n % 256), .ofNat (n / 256)]

/-- A block that holds at most `maxPlain` octets as they are. -/
def plainBlock (last : Bool) (bytes : List UInt8) : List UInt8 :=
  (if last then 1 else 0) :: twoOctets bytes.length ++ twoOctets (maxPlain - bytes.length) ++ bytes

/-- Compressed data that stands for the given octets. -/
def store (bytes : List UInt8) : List UInt8 :=
  if bytes.length ≤ maxPlain then plainBlock true bytes
  else plainBlock false (bytes.take maxPlain) ++ store (bytes.drop maxPlain)
termination_by bytes.length
decreasing_by simp only [maxPlain, List.length_drop] at *; omega

end LockOrder.Deflate
