import LockOrder.Deflate.Inflate
import LockOrder.Proofs.Deflate.Needs

/-!
# Stored data is inflated

Data that is stored as it is comes back when it is inflated, however many blocks it takes. Reading a
block starts and ends at the start of an octet.

## Main definitions

* `Deflate.ofBits` — the number that bits spell, least significant first
* `Deflate.atOctet` — reading at the start of an octet
* `Deflate.Inflates` — compressed data stands for octets

## Main results

* `Deflate.blockHead_plainHead` — the head of a block that holds octets as they are
* `Deflate.inflates_store` — stored data stands for the octets that were stored
-/

namespace LockOrder.Deflate

variable {α β : Type}

/-! ### Bits -/

/-- The number that bits spell, least significant first. -/
def ofBits : List Bool → Nat
  | [] => 0
  | b :: bits => b.toNat + 2 * ofBits bits

theorem bind_of_eq_ok {m : BitReader α} {s s' : Bits} {a : α} (h : m s = .ok (a, s'))
    (k : α → BitReader β) : (m >>= k) s = k a s' := by
  simp [bind, StateT.bind, Except.bind, h]

theorem number_append (bits rest : List Bool) (used : Nat) :
    number bits.length ⟨bits ++ rest, used⟩ = .ok (ofBits bits, ⟨rest, used + bits.length⟩) := by
  induction bits generalizing used with
  | nil => rfl
  | cons b bits ih =>
    have hbit : bit ⟨b :: (bits ++ rest), used⟩ = .ok (b, ⟨bits ++ rest, used + 1⟩) := rfl
    rw [List.length_cons, number, List.cons_append, bind_of_eq_ok hbit, bind_of_eq_ok (ih _),
      Nat.add_comm bits.length, ← Nat.add_assoc]
    rfl

theorem ofBits_octetBits_append (b : UInt8) (bits : List Bool) :
    ofBits (octetBits b ++ bits) = b.toNat + 256 * ofBits bits := by
  have hlow : ∀ n : Nat, (n.testBit 0).toNat = n % 2 := by
    intro n
    rcases Nat.mod_two_eq_zero_or_one n with h | h <;> simp [Nat.testBit_zero, h]
  have hlt := b.toNat_lt
  -- Each bit is the lowest one of what is left of the octet after as many halvings.
  simp only [octetBits, List.range, List.range.loop, List.map_cons, List.map_nil, ofBits,
    List.cons_append, List.nil_append, Nat.testBit_succ, hlow]
  omega

/-- Reading at the start of an octet, with `bytes` still to come and `taken` octets before. -/
def atOctet (bytes : List UInt8) (taken : Nat) : Bits := ⟨bytes.flatMap octetBits, 8 * taken⟩

theorem octetsUsed_atOctet (bytes : List UInt8) (taken : Nat) :
    (atOctet bytes taken).octetsUsed = taken := by
  simp only [atOctet, Bits.octetsUsed]
  omega

theorem number_octet (b : UInt8) (bytes : List UInt8) (taken : Nat) :
    number 8 (atOctet (b :: bytes) taken) = .ok (b.toNat, atOctet bytes (taken + 1)) := by
  have hread := number_append (octetBits b) (bytes.flatMap octetBits) (8 * taken)
  have hvalue : ofBits (octetBits b) = b.toNat := by
    simpa [ofBits] using ofBits_octetBits_append b []
  rw [length_octetBits, hvalue] at hread
  exact hread

theorem number_twoOctets {n : Nat} (hn : n ≤ maxPlain) (bytes : List UInt8) (taken : Nat) :
    number 16 (atOctet (twoOctets n ++ bytes) taken) = .ok (n, atOctet bytes (taken + 2)) := by
  have hread := number_append (octetBits (.ofNat (n % 256)) ++ octetBits (.ofNat (n / 256)))
    (bytes.flatMap octetBits) (8 * taken)
  have hvalue : ofBits (octetBits (.ofNat (n % 256)) ++ octetBits (.ofNat (n / 256))) = n := by
    have hhigh := ofBits_octetBits_append (.ofNat (n / 256)) []
    simp only [maxPlain] at hn
    rw [List.append_nil] at hhigh
    rw [ofBits_octetBits_append, hhigh, UInt8.toNat_ofNat', UInt8.toNat_ofNat', ofBits]
    omega
  have hused : 8 * taken + (8 + 8) = 8 * (taken + 2) := by omega
  rw [List.length_append, length_octetBits, length_octetBits, hvalue, List.append_assoc,
    hused] at hread
  simpa only [atOctet, twoOctets, List.flatMap_append, List.flatMap_cons, List.flatMap_nil,
    List.append_nil, List.append_assoc] using hread

/-! ### Blocks -/

/-- The head of a block that holds so many octets as they are. -/
def plainHead (last : Bool) (length : Nat) : List UInt8 :=
  (if last then 1 else 0) :: (twoOctets length ++ twoOctets (maxPlain - length))

-- The three bits of the head leave five of their octet, which hold nothing.
theorem align_head (bytes : List UInt8) (taken : Nat) :
    align ⟨List.replicate 5 false ++ bytes.flatMap octetBits, 8 * taken + 3⟩ =
      .ok ((), atOctet bytes (taken + 1)) := by
  have hskip : (8 - (8 * taken + 3) % 8) % 8 = 5 := by omega
  simp only [align, hskip]
  rfl

theorem plainLength_twoOctets {n : Nat} (hn : n ≤ maxPlain) (bytes : List UInt8) (taken : Nat) :
    plainLength ⟨List.replicate 5 false ++
        (twoOctets n ++ (twoOctets (maxPlain - n) ++ bytes)).flatMap octetBits, 8 * taken + 3⟩ =
      .ok (n, atOctet bytes (taken + 5)) := by
  have hsum : n + (maxPlain - n) = 0xFFFF := Nat.add_sub_of_le hn
  rw [plainLength, bind_of_eq_ok (align_head _ _), bind_of_eq_ok (number_twoOctets hn _ _),
    bind_of_eq_ok (number_twoOctets (Nat.sub_le ..) _ _), if_pos hsum]
  rfl

theorem blockHead_plainHead (last : Bool) {n : Nat} (hn : n ≤ maxPlain) (bytes : List UInt8)
    (taken : Nat) :
    blockHead (atOctet (plainHead last n ++ bytes) taken) =
      .ok ((last, .plain n), atOctet bytes (taken + 5)) := by
  have hflag : octetBits (if last then 1 else 0) =
      last :: false :: false :: List.replicate 5 false := by
    cases last <;> decide
  have hbit : ∀ rest, bit ⟨last :: rest, 8 * taken⟩ = .ok (last, ⟨rest, 8 * taken + 1⟩) :=
    fun _ => rfl
  have hkind : ∀ rest, number 2 ⟨false :: false :: rest, 8 * taken + 1⟩ =
      .ok (0, ⟨rest, 8 * taken + 3⟩) := fun rest => number_append [false, false] rest _
  rw [blockHead, atOctet, plainHead, List.cons_append, List.flatMap_cons, hflag, List.append_assoc]
  simp only [List.cons_append]
  rw [bind_of_eq_ok (hbit _), bind_of_eq_ok (hkind _)]
  change (plainLength >>= fun _ => _) _ = _
  rw [bind_of_eq_ok (plainLength_twoOctets hn bytes taken)]
  rfl

theorem inflatePlain_append (bytes more : List UInt8) (output : Array Octet) (taken : Nat) :
    ∃ octets : List Octet, octets.map Octet.value = bytes ∧
      inflatePlain bytes.length output (atOctet (bytes ++ more) taken) =
        (output ++ octets.toArray, .ok ((), atOctet more (taken + bytes.length))) := by
  induction bytes generalizing output taken with
  | nil => exact ⟨[], rfl, by simp [inflatePlain]⟩
  | cons b bytes ih =>
    obtain ⟨octets, hvalues, hrun⟩ := ih (output.push ⟨b, taken + 1⟩) (taken + 1)
    have htaken : taken + 1 + bytes.length = taken + (b :: bytes).length := by
      rw [List.length_cons]
      omega
    refine ⟨⟨b, taken + 1⟩ :: octets, by rw [List.map_cons, hvalues], ?_⟩
    rw [List.length_cons, inflatePlain, List.cons_append, number_octet]
    simp only [octetsUsed_atOctet, UInt8.ofNat_toNat]
    rw [hrun, htaken]
    simp

theorem plainBlock_eq (last : Bool) (bytes : List UInt8) :
    plainBlock last bytes = plainHead last bytes.length ++ bytes := by
  simp [plainBlock, plainHead]

theorem inflateBlock_plainBlock (last : Bool) {bytes : List UInt8}
    (hbytes : bytes.length ≤ maxPlain) (more : List UInt8) (output : Array Octet) (taken : Nat) :
    ∃ octets : List Octet, octets.map Octet.value = bytes ∧
      inflateBlock output (atOctet (plainBlock last bytes ++ more) taken) =
        (output ++ octets.toArray, .ok (last, atOctet more (taken + 5 + bytes.length))) := by
  obtain ⟨octets, hvalues, hrun⟩ := inflatePlain_append bytes more output (taken + 5)
  refine ⟨octets, hvalues, ?_⟩
  rw [inflateBlock, plainBlock_eq, List.append_assoc, blockHead_plainHead last hbytes]
  simp only [hrun]
  rfl

theorem length_plainBlock_ne_zero (last : Bool) (bytes : List UInt8) :
    (plainBlock last bytes).length ≠ 0 := by
  simp [plainBlock]

theorem inflateBlocks_store (bytes : List UInt8) {fuel : Nat} (hfuel : (store bytes).length ≤ fuel)
    (output : Array Octet) (taken : Nat) :
    ∃ (octets : List Octet) (need : Nat), octets.map Octet.value = bytes ∧
      inflateBlocks fuel output (atOctet (store bytes) taken) =
        ⟨output ++ octets.toArray, .complete need⟩ := by
  fun_induction store bytes generalizing fuel output taken with
  | case1 bytes hle =>
    have hlength := length_plainBlock_ne_zero true bytes
    obtain ⟨fuel, rfl⟩ := Nat.exists_eq_add_one_of_ne_zero (by omega : fuel ≠ 0)
    obtain ⟨octets, hvalues, hrun⟩ := inflateBlock_plainBlock true hle [] output taken
    rw [List.append_nil] at hrun
    refine ⟨octets, taken + 5 + bytes.length, hvalues, ?_⟩
    rw [inflateBlocks, hrun]
    simp only [octetsUsed_atOctet]
  | case2 bytes hgt ih =>
    have hlength := length_plainBlock_ne_zero false (bytes.take maxPlain)
    rw [List.length_append] at hfuel
    obtain ⟨fuel, rfl⟩ := Nat.exists_eq_add_one_of_ne_zero (by omega : fuel ≠ 0)
    obtain ⟨first, hfirst, hrun⟩ := inflateBlock_plainBlock false
      (List.length_take_le ..) (store (bytes.drop maxPlain)) output taken
    obtain ⟨later, need, hlater, hruns⟩ := ih (by omega : _ ≤ fuel) (output ++ first.toArray)
      (taken + 5 + (bytes.take maxPlain).length)
    refine ⟨first ++ later, need, ?_, ?_⟩
    · rw [List.map_append, hfirst, hlater, List.take_append_drop]
    · rw [inflateBlocks, hrun]
      simp only [hruns, Array.append_assoc, List.append_toArray]

/-- Compressed data stands for the given octets, up to the end of its last block. -/
def Inflates (data bytes : List UInt8) : Prop :=
  ∃ need, (inflate data).ending = .complete need ∧
    (inflate data).output.toList.map Octet.value = bytes

/-- Stored data stands for the octets that were stored. -/
theorem inflates_store (bytes : List UInt8) : Inflates (store bytes) bytes := by
  have hfuel : (store bytes).length ≤ (Bits.ofOctets (store bytes)).rest.length + 1 := by
    rw [Bits.ofOctets, length_flatMap_octetBits]
    omega
  obtain ⟨octets, need, hvalues, hrun⟩ := inflateBlocks_store bytes hfuel #[] 0
  have hinflate : inflate (store bytes) = ⟨#[] ++ octets.toArray, .complete need⟩ := hrun
  exact ⟨need, by rw [hinflate], by simpa [hinflate] using hvalues⟩

end LockOrder.Deflate
