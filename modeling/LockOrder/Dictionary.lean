/-!
# Dictionaries

A dictionary maps keys to values. It is kept as a list of entries in the order in which their
keys first came, so that two dictionaries with the same history are equal and not only alike.

## Main definitions

* `Dictionary` — a list of keys and values
* `Dictionary.get?` — the value of a key
* `Dictionary.insert`, `Dictionary.erase` — with a key added, replaced or left out
-/

namespace LockOrder

/-- Keys and values, in the order in which the keys first came. -/
structure Dictionary (κ α : Type) where
  /-- The entries. -/
  entries : List (κ × α)
deriving DecidableEq, Repr, Inhabited

namespace Dictionary

variable {κ α : Type} [DecidableEq κ]

/-- The dictionary without entries. -/
def empty : Dictionary κ α := ⟨[]⟩

/-- The value of the first entry of a key in a list of entries. -/
def lookup (k : κ) : List (κ × α) → Option α
  | [] => none
  | (k', a) :: rest => if k' = k then some a else lookup k rest

/-- The value of a key. -/
def get? (d : Dictionary κ α) (k : κ) : Option α := lookup k d.entries

/-- A list of entries with `a` as the value of `k`: in the place of its first entry, or at the
end. -/
def store (k : κ) (a : α) : List (κ × α) → List (κ × α)
  | [] => [(k, a)]
  | (k', b) :: rest => if k' = k then (k, a) :: rest else (k', b) :: store k a rest

/-- The dictionary with `a` as the value of `k`. -/
def insert (d : Dictionary κ α) (k : κ) (a : α) : Dictionary κ α := ⟨store k a d.entries⟩

/-- The dictionary without `k`. -/
def erase (d : Dictionary κ α) (k : κ) : Dictionary κ α :=
  ⟨d.entries.filter fun entry => entry.1 ≠ k⟩

end Dictionary

end LockOrder
