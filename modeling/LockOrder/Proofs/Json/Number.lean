import LockOrder.Json.Shape
import LockOrder.Proofs.Json.Reader
import LockOrder.Proofs.Text.Decimal

/-!
# Reading whole numbers

## Main results

* `Json.reads_natural` — a number in decimal is read back, if it is below the bound asked for and
  fits into a word
-/

namespace LockOrder.Json

open Text (digitValues digitOctet octets decimal)

variable {b : UInt8} {n : Nat} {feed : Feed}

theorem isDigit_digitOctet {d : Nat} (hd : d < 10) : isDigit (digitOctet d) = true := by
  revert d
  decide

theorem eq_of_isStop (hb : isStop b = true) :
    b = 0x2C ∨ b = 0x5D ∨ b = 0x7D ∨ b = 0x20 ∨ b = 0x09 ∨ b = 0x0A ∨ b = 0x0D := by
  simpa [isStop, isBlank, or_assoc] using hb

theorem Feed.Stops.peek (h : feed.Stops) : Json.peek feed = .ok (feed.bytes.head?, feed) := by
  obtain ⟨bytes, cut⟩ := feed
  cases bytes with
  | nil =>
    obtain rfl : cut = none := h
    rfl
  | cons b rest => rfl

theorem Feed.Stops.isStop_of_head? (h : feed.Stops) (hb : feed.bytes.head? = some b) :
    isStop b = true := by
  obtain ⟨bytes, cut⟩ := feed
  obtain ⟨rest, rfl⟩ := List.head?_eq_some_iff.mp hb
  exact h

/-- What follows does not start with a digit. -/
def NoDigit (text : List UInt8) : Prop := ∀ b ∈ text.head?, isDigit b = false

theorem Feed.Stops.noDigit (h : feed.Stops) : NoDigit feed.bytes := by
  intro b hb
  rcases eq_of_isStop (h.isStop_of_head? hb) with rfl | rfl | rfl | rfl | rfl | rfl | rfl <;> rfl

theorem digitRun_of_digits {ds rest : List UInt8} (hds : ∀ b ∈ ds, isDigit b = true)
    (hrest : NoDigit rest) (cut : Option Cut) :
    digitRun ⟨ds ++ rest, cut⟩ = .ok (ds.map fun b => b.toNat - 0x30, ⟨rest, cut⟩) := by
  have hend : rest.takeWhile isDigit = [] ∧ rest.dropWhile isDigit = rest := by
    cases rest with
    | nil => exact ⟨rfl, rfl⟩
    | cons b rest => simp [hrest b rfl]
  rw [digitRun, List.takeWhile_append_of_pos hds, List.dropWhile_append_of_pos hds, hend.1, hend.2,
    List.append_nil]

theorem digitRun_decimal (n : Nat) (h : feed.Stops) :
    digitRun ⟨octets (decimal n) ++ feed.bytes, feed.cut⟩ = .ok (digitValues n, feed) := by
  have hdigits : ∀ b ∈ octets (decimal n), isDigit b = true := by
    rw [Text.octets_decimal]
    intro b hb
    obtain ⟨d, hd, rfl⟩ := List.mem_map.mp hb
    exact isDigit_digitOctet (Text.digitValues_lt hd)
  have hvalues : (octets (decimal n)).map (fun b => b.toNat - 0x30) = digitValues n := by
    rw [Text.octets_decimal, List.map_map]
    refine (List.map_congr_left (g := id) fun d hd => ?_).trans (List.map_id _)
    simp [Text.toNat_digitOctet (Text.digitValues_lt hd)]
  rw [digitRun_of_digits hdigits h.noDigit, hvalues]

theorem wholeDigits_decimal (n : Nat) (h : feed.Stops) :
    wholeDigits ⟨octets (decimal n) ++ feed.bytes, feed.cut⟩ = .ok (digitValues n, feed) := by
  rw [wholeDigits, bind_of_eq_ok (digitRun_decimal n h)]
  generalize hds : digitValues n = ds
  split
  · exact absurd hds (Text.digitValues_ne_nil n)
  · exact absurd hds (Text.digitValues_ne_zero_cons_cons n _ _)
  · rfl

-- A byte that ends a value is no point and no letter, so a number goes on with neither.
theorem Feed.Stops.fractionDigits (h : feed.Stops) : Json.fractionDigits feed = .ok ([], feed) := by
  rw [Json.fractionDigits, bind_of_eq_ok h.peek]
  generalize hb : feed.bytes.head? = first
  split
  · exact absurd (h.isStop_of_head? hb) (by decide)
  · rfl

theorem Feed.Stops.exponentPart (h : feed.Stops) : Json.exponentPart feed = .ok (none, feed) := by
  rw [Json.exponentPart, bind_of_eq_ok h.peek]
  generalize hb : feed.bytes.head? = first
  split
  · exact absurd (h.isStop_of_head? hb) (by decide)
  · exact absurd (h.isStop_of_head? hb) (by decide)
  · rfl

theorem numeral_decimal (n : Nat) (h : feed.Stops) :
    numeral ⟨octets (decimal n) ++ feed.bytes, feed.cut⟩ =
      .ok (⟨digitValues n, [], none⟩, feed) := by
  simp only [numeral, run_bind, wholeDigits_decimal n h, ok_bind, h.fractionDigits,
    h.exponentPart, h.peek, run_pure]

theorem number_decimal (hn : n < wordBound) (h : feed.Stops) :
    number false ⟨octets (decimal n) ++ feed.bytes, feed.cut⟩ = .ok (.integer n, feed) := by
  have hvalue : Numeral.value false ⟨digitValues n, [], none⟩ = some (.integer n) := by
    simp [Numeral.value, ofDigits, Text.foldl_digitValues, hn]
  simp only [number, run_bind, numeral_decimal n h, ok_bind, hvalue, run_pure]

theorem isStop_of_isDigit (hb : isDigit b = true) : isStop b = false := by
  refine Bool.eq_false_iff.mpr fun hstop => ?_
  rcases eq_of_isStop hstop with rfl | rfl | rfl | rfl | rfl | rfl | rfl <;>
    exact absurd hb (by decide)

theorem found_of_isDigit (hb : isDigit b = true) (rest : List UInt8) (cut : Option Cut) :
    found ⟨b :: rest, cut⟩ = number false ⟨b :: rest, cut⟩ := by
  have hblank := isBlank_of_isStop_eq_false (isStop_of_isDigit hb)
  rw [found, bind_of_eq_ok (skipBlanksTo_cons hblank)]
  split
  all_goals try exact absurd hb (by decide)
  rw [if_pos hb]

theorem exists_octets_decimal (n : Nat) :
    ∃ b rest, octets (decimal n) = b :: rest ∧ isDigit b = true := by
  obtain ⟨d, ds, hds⟩ := List.exists_cons_of_ne_nil (Text.digitValues_ne_nil n)
  refine ⟨digitOctet d, ds.map digitOctet, by rw [Text.octets_decimal, hds]; rfl, ?_⟩
  exact isDigit_digitOctet (Text.digitValues_lt (n := n) (by rw [hds]; exact List.mem_cons_self))

theorem reads_natural {bound : Nat} (hn : n < bound) (hbound : bound ≤ wordBound)
    (expected : String) : Reads (natural bound expected) (octets (decimal n)) n := by
  obtain ⟨b, rest, htext, hb⟩ := exists_octets_decimal n
  refine ⟨⟨b, by rw [htext]; rfl, isStop_of_isDigit hb⟩, fun feed hfeed => ?_⟩
  have hblank := isBlank_of_isStop_eq_false (isStop_of_isDigit hb)
  have hnumber := number_decimal (Nat.lt_of_lt_of_le hn hbound) hfeed
  rw [htext, List.cons_append] at hnumber ⊢
  rw [natural, bind_of_eq_ok (skipBlanksTo_cons hblank), if_pos (.inr hb),
    bind_of_eq_ok ((found_of_isDigit hb _ _).trans hnumber)]
  exact congrFun (if_pos hn) feed

end LockOrder.Json
