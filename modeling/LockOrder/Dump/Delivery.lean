import LockOrder.Base64
import LockOrder.Deflate.Inflate
import LockOrder.Json.Reader

/-!
# Delivery of inflated text

The base64 text of a dump is decoded block by block, each block is inflated as far as it goes, and
the reader takes what was inflated one octet at a time. A block is decoded as soon as the reader
asks for an octet and the block before it is used up, even if some of what that one inflated to is
still waiting. So when a block cannot be decoded, the reader has seen only the first octet of what
the block before it inflated to.

When the data turns out corrupt, all that was inflated in the same step is lost. A step ends with
its block, and also when the window of 32768 octets is full.

## Main definitions

* `Dump.deliver` — the octets that the reader gets, and why they break off
* `Dump.feedOf` — the same for a base64 text
-/

namespace LockOrder.Dump

open Deflate (Octet Ending)
open Json (Cut Feed)

/-- The number of octets that are inflated in one step at most. -/
def windowSize : Nat := 32768

/-- Of so many octets inflated, how many are in windows that were full before the last step. -/
def settled (count : Nat) : Nat := (count - 1) / windowSize * windowSize

/-- The octets that the reader gets while the given blocks are decoded, `past` octets of output and
`avail` octets of input after the start. A block is given by its number of octets; `broken` tells
that a block that cannot be decoded follows. -/
def deliver (ending : Ending) (broken : Bool) (past avail : Nat) (output : List Octet) :
    List Nat → Feed
  | [] => ⟨[], some (if broken then .base64 else .compression)⟩
  | size :: sizes =>
    let avail := avail + size
    let ready := (output.takeWhile (·.need ≤ avail)).map (·.value)
    let later := output.dropWhile (·.need ≤ avail)
    let failsNext := sizes.isEmpty && broken
    let moved : Feed :=
      if failsNext then ⟨ready.take 1, some .base64⟩
      else if sizes.isEmpty then ⟨ready, some .compression⟩
      else
        let rest := deliver ending broken (past + ready.length) avail later sizes
        ⟨ready ++ rest.bytes, rest.cut⟩
    match ending with
    | .complete need =>
      if later.isEmpty && need ≤ avail then
        if failsNext && need = avail && !ready.isEmpty then ⟨ready.take 1, some .base64⟩
        else ⟨ready, none⟩
      else moved
    | .corrupt need =>
      if later.isEmpty && need ≤ avail then
        ⟨ready.take (settled (past + ready.length) - past), some .compression⟩
      else moved
    | .starved => moved

/-- The octets that the reader of a base64 text gets. -/
def feedOf (text : List UInt8) : Feed :=
  let supply := Base64.supply text
  let inflated := Deflate.inflate supply.octets.flatten
  deliver inflated.ending supply.broken 0 0 inflated.output.toList (supply.octets.map List.length)

end LockOrder.Dump
