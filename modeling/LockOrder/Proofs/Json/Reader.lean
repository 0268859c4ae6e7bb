import LockOrder.Json.Reader
import LockOrder.Proofs.Text.Octets

/-!
# What a reader takes off a text

A reader takes the text of a value off the feed and leaves what follows. That holds only where the
value has ended: more digits would belong to a number, and the end of a text that breaks off is not
the end of a number. So what follows has to be a byte that no value goes on with.

## Main definitions

* `Json.Feed.Stops` — what may follow a value
* `Json.Reads` — a reader takes a text for a value, whatever may follow

## Main results

* `Json.run_bind` and the equations of the elementary steps, by which reading is computed
-/

namespace LockOrder.Json

variable {α β : Type} {b : UInt8} {rest text : List UInt8} {cut : Option Cut}

/-! ### Elementary steps -/

@[simp]
theorem run_bind (m : Reader α) (k : α → Reader β) (feed : Feed) :
    (m >>= k) feed = (m feed).bind fun r => k r.1 r.2 := rfl

@[simp]
theorem run_pure (a : α) (feed : Feed) : (pure a : Reader α) feed = .ok (a, feed) := rfl

@[simp]
theorem ok_bind (a : α) (k : α → Except Flaw β) : (Except.ok a).bind k = k a := rfl

theorem bind_of_eq_ok {m : Reader α} {feed feed' : Feed} {a : α} (h : m feed = .ok (a, feed'))
    (k : α → Reader β) : (m >>= k) feed = k a feed' := by
  simp [h]

@[simp]
theorem peek_cons : peek ⟨b :: rest, cut⟩ = .ok (some b, ⟨b :: rest, cut⟩) := rfl

@[simp]
theorem advance_cons : advance ⟨b :: rest, cut⟩ = .ok ((), ⟨rest, cut⟩) := rfl

@[simp]
theorem ruler_eq (feed : Feed) : ruler feed = .ok (feed.bytes, feed) := rfl

@[simp]
theorem next_cons : next ⟨b :: rest, cut⟩ = .ok (b, ⟨rest, cut⟩) := rfl

theorem skipBlanks_cons (hb : isBlank b = false) :
    skipBlanks ⟨b :: rest, cut⟩ = .ok (some b, ⟨b :: rest, cut⟩) := by
  simp [skipBlanks, hb]

theorem skipBlanksTo_cons (hb : isBlank b = false) :
    skipBlanksTo ⟨b :: rest, cut⟩ = .ok (b, ⟨b :: rest, cut⟩) := by
  simp [skipBlanksTo, skipBlanks_cons hb]

/-! ### Texts of values -/

/-- Whether a byte ends the value before it: a comma, a closing bracket or white space. -/
def isStop (b : UInt8) : Bool := b = 0x2C || b = 0x5D || b = 0x7D || isBlank b

/-- What may follow a value: a byte that ends it, or the end of a complete text. -/
def Feed.Stops (feed : Feed) : Prop :=
  match feed.bytes with
  | [] => feed.cut = none
  | b :: _ => isStop b

theorem Feed.stops_cons (hb : isStop b = true) : Feed.Stops ⟨b :: rest, cut⟩ := hb

/-- A reader takes `text` for the value `a`. -/
structure Reads (item : Reader α) (text : List UInt8) (a : α) : Prop where
  /-- The text starts with a byte that ends no value. -/
  opens : ∃ b ∈ text.head?, isStop b = false
  /-- The text is taken off and what follows is left. -/
  reads : ∀ feed : Feed, feed.Stops → item ⟨text ++ feed.bytes, feed.cut⟩ = .ok (a, feed)

theorem Reads.exists_cons {item : Reader α} {a : α} (h : Reads item text a) :
    ∃ b rest, text = b :: rest ∧ isStop b = false := by
  obtain ⟨b, hb, hstop⟩ := h.opens
  obtain ⟨rest, rfl⟩ := List.head?_eq_some_iff.mp hb
  exact ⟨b, rest, rfl, hstop⟩

theorem Reads.run {item : Reader α} {a : α} (h : Reads item text a)
    (hstops : Feed.Stops ⟨rest, cut⟩) :
    item ⟨text ++ rest, cut⟩ = .ok (a, ⟨rest, cut⟩) :=
  h.reads ⟨rest, cut⟩ hstops

theorem isBlank_of_isStop_eq_false (h : isStop b = false) : isBlank b = false := by
  simp_all [isStop]

end LockOrder.Json
