import LockOrder.Proofs.Text.Octets
import Mathlib.Data.List.Lex
import Mathlib.Tactic.SplitIfs

/-!
# The order of texts

Strings are compared character by character, by code point. The octets of a character with a larger
code point are larger at the first place where they differ, and no character's octets start with
those of another, so comparing octet by octet gives the same order.

## Main results

* `Text.octets_lt_octets` — the order of texts is the order of their octets
-/

namespace LockOrder.Text

theorem octet_cons_lt_iff {a b : UInt8} {s t : List UInt8} :
    a :: s < b :: t ↔ a.toNat ≤ b.toNat ∧ (a.toNat = b.toNat → s < t) := by
  rw [List.cons_lt_cons_iff, UInt8.lt_iff_toNat_lt, ← UInt8.toNat_inj]
  constructor
  · rintro (hlt | ⟨heq, hst⟩)
    · exact ⟨Nat.le_of_lt hlt, fun heq => absurd heq (Nat.ne_of_lt hlt)⟩
    · exact ⟨Nat.le_of_eq heq, fun _ => hst⟩
  · rintro ⟨hle, hst⟩
    exact (Nat.lt_or_eq_of_le hle).imp id fun heq => ⟨heq, hst heq⟩

/-- The octets of different characters are in the order of the characters, whatever follows. -/
theorem utf8EncodeChar_append_lt {c d : Char} (h : c < d) (s t : List UInt8) :
    String.utf8EncodeChar c ++ s < String.utf8EncodeChar d ++ t := by
  have hlt : c.val.toNat < d.val.toNat := UInt32.lt_iff_toNat_lt.mp h
  have hd : d.val.toNat < 0x110000 := d.valid.elim (fun h => by omega) And.right
  -- A longer form starts with a larger octet. In forms of one length, the high bits come first.
  simp only [String.utf8EncodeChar]
  split_ifs
  all_goals
    simp only [List.cons_append, List.nil_append, octet_cons_lt_iff, UInt8.toNat_ofNat']
    omega

/-- The order of texts is the order of their octets. -/
theorem octets_lt_octets {s t : String} (h : s < t) : octets s < octets t := by
  rw [octets_eq_flatMap, octets_eq_flatMap]
  have hlex : List.Lex (· < ·) s.toList t.toList := h
  -- the induction is on how the lists of characters compare
  generalize s.toList = cs at hlex ⊢
  generalize t.toList = ds at hlex ⊢
  induction hlex with
  | @nil d ds =>
    obtain ⟨b, bs, heq⟩ := List.exists_cons_of_ne_nil (String.utf8EncodeChar_ne_nil (c := d))
    rw [List.flatMap_nil, List.flatMap_cons, heq]
    exact List.Lex.nil
  | rel hcd =>
    rw [List.flatMap_cons, List.flatMap_cons]
    exact utf8EncodeChar_append_lt hcd _ _
  | cons _ ih =>
    rw [List.flatMap_cons, List.flatMap_cons]
    exact List.Lex.append_left _ ih _

end LockOrder.Text
