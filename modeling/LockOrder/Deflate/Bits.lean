/-!
# Bits

Compressed data is a sequence of bits, packed into octets from the least significant bit on. A
reader of bits counts the bits that it has taken, so that what it finds can be traced to the octet
of the input that decided it.

## Main definitions

* `Deflate.Bits` — the bits still to come
* `Deflate.BitReader` — a step of reading, which may run out of bits or find the data corrupt
* `Deflate.bit`, `Deflate.number`, `Deflate.align` — the elementary steps
-/

namespace LockOrder.Deflate

/-- The bits still to come. -/
structure Bits where
  /-- The bits. -/
  rest : List Bool
  /-- How many bits were taken before. -/
  used : Nat
deriving DecidableEq, Repr, Inhabited

/-- Why reading stops before the end of the data. -/
inductive Halt where
  /-- There are no more bits. -/
  | starved
  /-- The bits taken so far cannot be the start of compressed data. -/
  | corrupt (used : Nat)
deriving DecidableEq, Repr

/-- A step of reading: it takes bits, or stops. -/
abbrev BitReader := StateT Bits (Except Halt)

/-- The bits of an octet, least significant first. -/
def octetBits (b : UInt8) : List Bool := (List.range 8).map b.toNat.testBit

/-- The bits of a list of octets. -/
def Bits.ofOctets (bytes : List UInt8) : Bits := ⟨bytes.flatMap octetBits, 0⟩

/-- The number of octets that hold the bits taken so far. -/
def Bits.octetsUsed (s : Bits) : Nat := (s.used + 7) / 8

/-- Refuses the data. -/
def corrupt {α : Type} : BitReader α := fun s => .error (.corrupt s.used)

/-- Takes a bit. -/
def bit : BitReader Bool := fun s =>
  match s.rest with
  | [] => .error .starved
  | b :: rest => .ok (b, ⟨rest, s.used + 1⟩)

/-- Takes a number of so many bits, least significant first. -/
def number : Nat → BitReader Nat
  | 0 => pure 0
  | n + 1 => do
    let b ← bit
    let high ← number n
    return b.toNat + 2 * high

/-- Skips what is left of the octet that the last bit was taken from. -/
def align : BitReader Unit := fun s =>
  let skipped := (8 - s.used % 8) % 8
  .ok ((), ⟨s.rest.drop skipped, s.used + skipped⟩)

end LockOrder.Deflate
