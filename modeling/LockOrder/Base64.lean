/-!
# Base64

Three octets are written as four characters of six bits each; a last group of one or two octets is
filled up with padding. Reading is strict: padding must be there, and the bits of a character that
belong to no octet must be zero.

Long text is decoded block by block, so that a flaw shows only when its block is reached. A block is
a run of 1024 characters. What does not fill up a group of four at the end of the text is a block of
its own, which cannot be decoded.

## Main definitions

* `Base64.encode`, `Base64.decode` — octets as characters, and back
* `Base64.blocks` — the blocks of a text
* `Base64.Supply`, `Base64.supply` — what a text yields, block by block
-/

namespace LockOrder.Base64

/-- The padding character, `=`. -/
def pad : UInt8 := 0x3D

/-- The character of a six-bit value. -/
def symbol (v : Nat) : UInt8 :=
  if v < 26 then .ofNat (0x41 + v)
  else if v < 52 then .ofNat (0x61 + (v - 26))
  else if v < 62 then .ofNat (0x30 + (v - 52))
  else if v = 62 then 0x2B
  else 0x2F

/-- The six-bit value of a character. -/
def value? (b : UInt8) : Option Nat :=
  let n := b.toNat
  if 0x41 ≤ n ∧ n ≤ 0x5A then some (n - 0x41)
  else if 0x61 ≤ n ∧ n ≤ 0x7A then some (n - 0x61 + 26)
  else if 0x30 ≤ n ∧ n ≤ 0x39 then some (n - 0x30 + 52)
  else if n = 0x2B then some 62
  else if n = 0x2F then some 63
  else none

/-! ### Writing -/

/-- The characters of a list of octets. -/
def encode : List UInt8 → List UInt8
  | [] => []
  | [a] => [symbol (a.toNat / 4), symbol (a.toNat % 4 * 16), pad, pad]
  | [a, b] =>
    [symbol (a.toNat / 4), symbol (a.toNat % 4 * 16 + b.toNat / 16), symbol (b.toNat % 16 * 4), pad]
  | a :: b :: c :: rest =>
    symbol (a.toNat / 4) :: symbol (a.toNat % 4 * 16 + b.toNat / 16) ::
      symbol (b.toNat % 16 * 4 + c.toNat / 64) :: symbol (c.toNat % 64) :: encode rest

/-! ### Reading -/

/-- The octet of two characters that are followed by padding. -/
def decodeOne (a b : UInt8) : Option (List UInt8) := do
  let x ← value? a
  let y ← value? b
  if y % 16 = 0 then some [.ofNat (x * 4 + y / 16)] else none

/-- The octets of three characters that are followed by padding. -/
def decodeTwo (a b c : UInt8) : Option (List UInt8) := do
  let x ← value? a
  let y ← value? b
  let z ← value? c
  if z % 4 = 0 then some [.ofNat (x * 4 + y / 16), .ofNat (y % 16 * 16 + z / 4)] else none

/-- The octets of four characters. -/
def decodeThree (a b c d : UInt8) : Option (List UInt8) := do
  let x ← value? a
  let y ← value? b
  let z ← value? c
  let w ← value? d
  some [.ofNat (x * 4 + y / 16), .ofNat (y % 16 * 16 + z / 4), .ofNat (z % 4 * 64 + w)]

/-- The octets of the last four characters of a text. -/
def decodeLast (a b c d : UInt8) : Option (List UInt8) :=
  if d = pad then
    if c = pad then decodeOne a b else decodeTwo a b c
  else decodeThree a b c d

/-- The octets of a text, which is whole groups of four characters. -/
def decode : List UInt8 → Option (List UInt8)
  | [] => some []
  | [a, b, c, d] => decodeLast a b c d
  | a :: b :: c :: d :: rest => do
    let octets ← decodeThree a b c d
    return octets ++ (← decode rest)
  | _ => none

/-! ### Blocks -/

/-- The most characters in a block. -/
def blockSize : Nat := 1024

/-- The number of characters in the next block, if no more than `n` are left: whole groups, or all
that is left if that is less than a group. -/
def blockLength (n : Nat) : Nat := if n < 4 then n else n - n % 4

/-- The blocks of a text. -/
def blocks (text : List UInt8) : List (List UInt8) :=
  match text with
  | [] => []
  | b :: rest =>
    let window := (b :: rest).take blockSize
    let n := blockLength window.length
    window.take n :: blocks ((b :: rest).drop n)
termination_by text.length
decreasing_by
  simp only [blockLength, blockSize, List.length_drop, List.length_take, List.length_cons]
  split <;> omega

/-- What a text yields, block by block. -/
structure Supply where
  /-- The octets of each block before the first that cannot be decoded. -/
  octets : List (List UInt8)
  /-- Whether there is a block that cannot be decoded. -/
  broken : Bool
deriving DecidableEq, Repr

/-- What a list of blocks yields. No block may follow one that ends with padding. -/
def Supply.ofBlocks : List (List UInt8) → Supply
  | [] => ⟨[], false⟩
  | block :: rest =>
    match decode block with
    | none => ⟨[], true⟩
    | some octets =>
      if block.getLast? = some pad && !rest.isEmpty then ⟨[octets], true⟩
      else
        let later := Supply.ofBlocks rest
        ⟨octets :: later.octets, later.broken⟩

/-- What a text yields. -/
def supply (text : List UInt8) : Supply := .ofBlocks (blocks text)

end LockOrder.Base64
