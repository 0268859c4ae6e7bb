import LockOrder.Base64

/-!
# Base64 is read back

What is written in base64 decodes to the octets that were written. A long text is decoded in blocks,
and a block of a written text holds whole groups, so nothing is lost where blocks meet.

## Main results

* `Base64.decode_encode` — written octets are decoded
* `Base64.supply_encode` — the blocks of a written text yield its octets, and none is broken
-/

namespace LockOrder.Base64

variable {v : Nat}

theorem value?_symbol (hv : v < 64) : value? (symbol v) = some v := by
  revert v
  decide

theorem symbol_ne_pad (hv : v < 64) : symbol v ≠ pad := by
  revert v
  decide

/-! ### Groups -/

theorem lt_high (a : UInt8) : a.toNat / 4 < 64 := by
  have := a.toNat_lt
  omega

theorem lt_middle (a b : UInt8) : a.toNat % 4 * 16 + b.toNat / 16 < 64 := by
  have := b.toNat_lt
  omega

theorem lt_late (b c : UInt8) : b.toNat % 16 * 4 + c.toNat / 64 < 64 := by
  have := c.toNat_lt
  omega

-- The first octet of a group, from its six high bits and the two that share a character with the
-- second octet.
theorem join_first (a b : UInt8) :
    UInt8.ofNat (a.toNat / 4 * 4 + (a.toNat % 4 * 16 + b.toNat / 16) / 16) = a := by
  have hb := b.toNat_lt
  have ha : a.toNat / 4 * 4 + (a.toNat % 4 * 16 + b.toNat / 16) / 16 = a.toNat := by omega
  rw [ha, UInt8.ofNat_toNat]

theorem decodeOne_symbols (a : UInt8) :
    decodeOne (symbol (a.toNat / 4)) (symbol (a.toNat % 4 * 16)) = some [a] := by
  have hx := value?_symbol (lt_high a)
  have hy := value?_symbol (lt_middle a 0)
  have ha := join_first a 0
  have hzero : a.toNat % 4 * 16 % 16 = 0 := Nat.mul_mod_left ..
  simp only [UInt8.toNat_zero, Nat.zero_div, Nat.add_zero] at hy ha
  simp only [decodeOne, hx, hy, hzero, ha, Option.bind_eq_bind, Option.bind_some, if_true]

theorem decodeTwo_symbols (a b : UInt8) :
    decodeTwo (symbol (a.toNat / 4)) (symbol (a.toNat % 4 * 16 + b.toNat / 16))
      (symbol (b.toNat % 16 * 4)) = some [a, b] := by
  have hx := value?_symbol (lt_high a)
  have hy := value?_symbol (lt_middle a b)
  have hz := value?_symbol (lt_late b 0)
  have hzero : b.toNat % 16 * 4 % 4 = 0 := Nat.mul_mod_left ..
  have hb : (a.toNat % 4 * 16 + b.toNat / 16) % 16 * 16 + b.toNat % 16 * 4 / 4 = b.toNat := by
    have := b.toNat_lt
    omega
  simp only [UInt8.toNat_zero, Nat.zero_div, Nat.add_zero] at hz
  simp only [decodeTwo, hx, hy, hz, hzero, join_first, hb, UInt8.ofNat_toNat, Option.bind_eq_bind,
    Option.bind_some, if_true]

theorem decodeThree_symbols (a b c : UInt8) :
    decodeThree (symbol (a.toNat / 4)) (symbol (a.toNat % 4 * 16 + b.toNat / 16))
      (symbol (b.toNat % 16 * 4 + c.toNat / 64)) (symbol (c.toNat % 64)) = some [a, b, c] := by
  have hx := value?_symbol (lt_high a)
  have hy := value?_symbol (lt_middle a b)
  have hz := value?_symbol (lt_late b c)
  have hw := value?_symbol (Nat.mod_lt c.toNat (by decide : 0 < 64))
  have hb' := b.toNat_lt
  have hc' := c.toNat_lt
  have hb : (a.toNat % 4 * 16 + b.toNat / 16) % 16 * 16 +
      (b.toNat % 16 * 4 + c.toNat / 64) / 4 = b.toNat := by omega
  have hc : (b.toNat % 16 * 4 + c.toNat / 64) % 4 * 64 + c.toNat % 64 = c.toNat := by omega
  simp only [decodeThree, hx, hy, hz, hw, join_first, hb, hc, UInt8.ofNat_toNat,
    Option.bind_eq_bind, Option.bind_some]

theorem encode_ne_nil {bytes : List UInt8} (h : bytes ≠ []) : encode bytes ≠ [] := by
  fun_cases encode bytes with
  | case1 => exact absurd rfl h
  | case2 a => exact List.cons_ne_nil _ _
  | case3 a b => exact List.cons_ne_nil _ _
  | case4 a b c rest => exact List.cons_ne_nil _ _

theorem decode_encode (bytes : List UInt8) : decode (encode bytes) = some bytes := by
  fun_induction encode bytes with
  | case1 => rfl
  | case2 a =>
    rw [decode, decodeLast, if_pos rfl, if_pos rfl, decodeOne_symbols]
  | case3 a b =>
    have hz : symbol (b.toNat % 16 * 4) ≠ pad := symbol_ne_pad (by omega)
    rw [decode, decodeLast, if_pos rfl, if_neg hz, decodeTwo_symbols]
  | case4 a b c rest ih =>
    have hw : symbol (c.toNat % 64) ≠ pad := symbol_ne_pad (Nat.mod_lt _ (by decide))
    cases rest with
    | nil => rw [encode, decode, decodeLast, if_neg hw, decodeThree_symbols]
    | cons r rest =>
      -- A group that another one follows is not the last, so it has no padding to look for.
      obtain ⟨s, ss, hmore⟩ := List.exists_cons_of_ne_nil (encode_ne_nil (List.cons_ne_nil r rest))
      rw [hmore] at ih ⊢
      rw [decode, decodeThree_symbols, ih]
      · rfl
      · exact List.cons_ne_nil s ss

theorem eq_of_mem_encode {bytes : List UInt8} {b : UInt8} (hb : b ∈ encode bytes) :
    b = pad ∨ ∃ v < 64, b = symbol v := by
  fun_induction encode bytes with
  | case1 => exact absurd hb List.not_mem_nil
  | case2 a =>
    simp only [List.mem_cons, List.not_mem_nil, or_false] at hb
    rcases hb with rfl | rfl | rfl | rfl
    · exact .inr ⟨_, lt_high a, rfl⟩
    · exact .inr ⟨_, by omega, rfl⟩
    · exact .inl rfl
    · exact .inl rfl
  | case3 a b =>
    simp only [List.mem_cons, List.not_mem_nil, or_false] at hb
    rcases hb with rfl | rfl | rfl | rfl
    · exact .inr ⟨_, lt_high a, rfl⟩
    · exact .inr ⟨_, lt_middle a b, rfl⟩
    · exact .inr ⟨_, by omega, rfl⟩
    · exact .inl rfl
  | case4 a b c rest ih =>
    simp only [List.mem_cons] at hb
    rcases hb with rfl | rfl | rfl | rfl | hb
    · exact .inr ⟨_, lt_high a, rfl⟩
    · exact .inr ⟨_, lt_middle a b, rfl⟩
    · exact .inr ⟨_, lt_late b c, rfl⟩
    · exact .inr ⟨_, Nat.mod_lt _ (by decide), rfl⟩
    · exact ih hb

/-! ### Blocks -/

theorem encode_append {xs : List UInt8} (h : xs.length % 3 = 0) (ys : List UInt8) :
    encode (xs ++ ys) = encode xs ++ encode ys := by
  fun_induction encode xs with
  | case1 => rfl
  | case2 a => simp at h
  | case3 a b => simp at h
  | case4 a b c rest ih =>
    have hrest : rest.length % 3 = 0 := by
      simp only [List.length_cons] at h
      omega
    rw [List.cons_append, List.cons_append, List.cons_append, encode, ih hrest]
    rfl

theorem length_encode (bytes : List UInt8) :
    (encode bytes).length = (bytes.length + 2) / 3 * 4 := by
  fun_induction encode bytes with
  | case1 => rfl
  | case2 a => simp
  | case3 a b => simp
  | case4 a b c rest ih =>
    simp only [List.length_cons, ih]
    omega

theorem pad_notMem_encode {bytes : List UInt8} (h : bytes.length % 3 = 0) :
    pad ∉ encode bytes := by
  fun_induction encode bytes with
  | case1 => exact List.not_mem_nil
  | case2 a => simp at h
  | case3 a b => simp at h
  | case4 a b c rest ih =>
    have hrest : rest.length % 3 = 0 := by
      simp only [List.length_cons] at h
      omega
    simp only [List.mem_cons, not_or]
    exact ⟨(symbol_ne_pad (lt_high a)).symm, (symbol_ne_pad (lt_middle a b)).symm,
      (symbol_ne_pad (lt_late b c)).symm, (symbol_ne_pad (Nat.mod_lt _ (by decide))).symm,
      ih hrest⟩

/-- The number of octets in a full block. -/
def blockOctets : Nat := 768

theorem blocks_of_ne_nil {text : List UInt8} (h : text ≠ []) :
    blocks text = (text.take blockSize).take (blockLength (text.take blockSize).length) ::
      blocks (text.drop (blockLength (text.take blockSize).length)) := by
  cases text with
  | nil => exact absurd rfl h
  | cons b rest => rw [blocks]

theorem blocks_encode_of_le {bytes : List UInt8} (hne : bytes ≠ [])
    (hle : bytes.length ≤ blockOctets) : blocks (encode bytes) = [encode bytes] := by
  have hlength := length_encode bytes
  have hpos := List.length_pos_iff.mpr hne
  have hwindow : (encode bytes).take blockSize = encode bytes :=
    List.take_of_length_le (by simp only [blockSize, blockOctets] at *; omega)
  have hall : blockLength (encode bytes).length = (encode bytes).length := by
    rw [blockLength]
    split <;> omega
  rw [blocks_of_ne_nil (encode_ne_nil hne), hwindow, hall, List.take_length, List.drop_length,
    blocks]

theorem blocks_encode_of_lt {bytes : List UInt8} (hlt : blockOctets < bytes.length) :
    blocks (encode bytes) =
      encode (bytes.take blockOctets) :: blocks (encode (bytes.drop blockOctets)) := by
  have htake : (bytes.take blockOctets).length = blockOctets :=
    List.length_take_of_le (Nat.le_of_lt hlt)
  have hblock : (encode (bytes.take blockOctets)).length = blockSize := by
    rw [length_encode, htake]
    rfl
  have hsplit : encode bytes =
      encode (bytes.take blockOctets) ++ encode (bytes.drop blockOctets) := by
    rw [← encode_append (by rw [htake]; rfl), List.take_append_drop]
  have hne : encode bytes ≠ [] := encode_ne_nil (List.ne_nil_of_length_pos (by omega))
  have hwindow : (encode bytes).take blockSize = encode (bytes.take blockOctets) := by
    rw [hsplit, ← hblock, List.take_left]
  have hall : blockLength blockSize = blockSize := rfl
  rw [blocks_of_ne_nil hne, hwindow, hblock, hall, ← hblock, List.take_length, hsplit,
    List.drop_left]

/-- The blocks of a written text yield its octets, and none of them is broken. -/
theorem supply_encode (bytes : List UInt8) :
    ∃ parts : List (List UInt8),
      supply (encode bytes) = ⟨parts, false⟩ ∧ parts.flatten = bytes := by
  induction hn : bytes.length using Nat.strongRecOn generalizing bytes with
  | ind n ih =>
    by_cases hle : bytes.length ≤ blockOctets
    · by_cases hnil : bytes = []
      · subst hnil
        exact ⟨[], by rw [supply, encode, blocks]; rfl, rfl⟩
      · refine ⟨[bytes], ?_, by simp⟩
        rw [supply, blocks_encode_of_le hnil hle]
        simp [Supply.ofBlocks, decode_encode]
    · have hlt : blockOctets < bytes.length := Nat.lt_of_not_le hle
      obtain ⟨parts, hparts, hflatten⟩ := ih (bytes.drop blockOctets).length
        (by rw [List.length_drop]; simp only [blockOctets] at *; omega) (bytes.drop blockOctets) rfl
      refine ⟨bytes.take blockOctets :: parts, ?_, ?_⟩
      · have hlast : (encode (bytes.take blockOctets)).getLast? ≠ some pad := fun hpad =>
          pad_notMem_encode (by rw [List.length_take_of_le (Nat.le_of_lt hlt)]; rfl)
            (List.mem_of_getLast? hpad)
        rw [supply, blocks_encode_of_lt hlt, Supply.ofBlocks, decode_encode]
        rw [supply] at hparts
        simp [hlast, hparts]
      · rw [List.flatten_cons, hflatten, List.take_append_drop]

end LockOrder.Base64
