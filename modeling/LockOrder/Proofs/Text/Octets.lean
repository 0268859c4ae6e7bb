/-!
# Texts as octets

JSON text is written as a string and read as octets. The octets of a text are those of its
characters one after another, and no two texts share them.

## Main definitions

* `Text.octets` — the octets of a text

## Main results

* `Text.octets_eq_flatMap` — they are those of its characters in order
* `Text.fromUTF8?_octets` — they determine the text
* `Text.toNat_of_mem_utf8EncodeChar` — the octets of a character are the character itself or lie
  beyond ASCII
-/

namespace LockOrder.Text

/-- The octets of a text. -/
def octets (s : String) : List UInt8 := s.toUTF8.toList

theorem toList_loop_eq (b : ByteArray) (i : Nat) (acc : List UInt8) :
    ByteArray.toList.loop b i acc = acc.reverse ++ b.data.toList.drop i := by
  fun_induction ByteArray.toList.loop b i acc with
  | case1 i acc hlt ih =>
    have hlt' : i < b.data.toList.length := by simpa using hlt
    have hget : b.get! i = b.data.toList[i] := by
      simp [ByteArray.get!, getElem!_pos b.data i (by simpa using hlt)]
    rw [ih, List.drop_eq_getElem_cons hlt', hget]
    simp
  | case2 i acc hge =>
    have hge' : b.data.toList.length ≤ i := by
      simpa using Nat.le_of_not_lt hge
    rw [List.drop_of_length_le hge', List.append_nil]

theorem toList_eq_data (b : ByteArray) : b.toList = b.data.toList := by
  rw [ByteArray.toList, toList_loop_eq]
  simp

theorem octets_eq_flatMap (s : String) : octets s = s.toList.flatMap String.utf8EncodeChar := by
  rw [octets, toList_eq_data, String.toUTF8_eq_toByteArray, ← String.utf8Encode_toList,
    List.utf8Encode, List.toList_data_toByteArray]

@[simp]
theorem octets_append (s t : String) : octets (s ++ t) = octets s ++ octets t := by
  simp [octets_eq_flatMap]

@[simp]
theorem octets_ofList (cs : List Char) :
    octets (String.ofList cs) = cs.flatMap String.utf8EncodeChar := by
  simp [octets_eq_flatMap]

theorem octets_intercalate (separator : String) (items : List String) :
    octets (separator.intercalate items) =
      (octets separator).intercalate (items.map octets) := by
  induction items with
  | nil => simp [octets_eq_flatMap]
  | cons s items ih => cases items <;> simp_all

theorem fromUTF8?_octets (s : String) : String.fromUTF8? ⟨(octets s).toArray⟩ = some s := by
  have hbytes : (⟨(octets s).toArray⟩ : ByteArray) = s.toByteArray := by
    rw [octets, toList_eq_data, String.toUTF8_eq_toByteArray, Array.toArray_toList]
  rw [hbytes, String.fromUTF8?, dif_pos s.isValidUTF8]
  rfl

/-! ### Octets of a character -/

theorem utf8EncodeChar_of_lt {c : Char} (h : c.toNat < 0x80) :
    String.utf8EncodeChar c = [UInt8.ofNat c.toNat] := by
  have hle : c.val.toNat ≤ 0x7F := Nat.le_of_lt_succ h
  simp only [String.utf8EncodeChar, if_pos hle]
  rfl

theorem toNat_of_mem_utf8EncodeChar {c : Char} {b : UInt8} (hb : b ∈ String.utf8EncodeChar c) :
    b.toNat = c.toNat ∨ 0x80 ≤ b.toNat := by
  by_cases hlt : c.toNat < 0x80
  · rw [utf8EncodeChar_of_lt hlt, List.mem_singleton] at hb
    left
    rw [hb, UInt8.toNat_ofNat', Nat.mod_eq_of_lt (by omega)]
  · right
    -- Each octet of a longer form has its marker bits added to fewer bits than the marker's.
    have hgt : ¬ c.val.toNat ≤ 0x7F := fun h => hlt (Nat.lt_succ_of_le h)
    simp only [String.utf8EncodeChar, if_neg hgt] at hb
    split at hb
    all_goals try split at hb
    all_goals
      simp only [List.mem_cons, List.not_mem_nil, or_false] at hb
      rcases hb with rfl | rfl | rfl | rfl <;> rw [UInt8.toNat_ofNat'] <;> omega

end LockOrder.Text
