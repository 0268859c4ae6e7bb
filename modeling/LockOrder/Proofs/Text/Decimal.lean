import LockOrder.Number.Basic
import LockOrder.Proofs.Text.Octets
import Mathlib.Data.List.Basic

/-!
# Decimal digits

## Main definitions

* `Text.digitValues` — the values of the decimal digits of a number

## Main results

* `Text.octets_decimal` — the octets of a number in decimal, by these values
* `Text.foldl_digitValues` — the values spell the number
* `Text.digitValues_ne_zero_cons_cons` — a leading zero stands alone
* `Text.digits_append_inj` — a number is known where its digits end
-/

namespace LockOrder.Text

/-- The values of the decimal digits of a number, most significant first. -/
def digitValues (n : Nat) : List Nat :=
  if n < 10 then [n] else digitValues (n / 10) ++ [n % 10]
termination_by n
decreasing_by omega

theorem digits_eq_map (n : Nat) : digits n = (digitValues n).map digitChar := by
  fun_induction digits n with
  | case1 n hlt =>
    rw [digitValues, if_pos hlt]
    rfl
  | case2 n hge ih =>
    rw [digitValues, if_neg hge, ih, List.map_append]
    rfl

theorem digitValues_lt {n d : Nat} (hd : d ∈ digitValues n) : d < 10 := by
  fun_induction digitValues n with
  | case1 n hlt => simp_all
  | case2 n hge ih =>
    rcases List.mem_append.mp hd with hd | hd
    · exact ih hd
    · rw [List.mem_singleton.mp hd]
      exact Nat.mod_lt _ (by decide)

theorem foldl_digitValues (n : Nat) : (digitValues n).foldl (fun m d => m * 10 + d) 0 = n := by
  fun_induction digitValues n with
  | case1 n hlt => simp
  | case2 n hge ih =>
    rw [List.foldl_append, ih]
    exact Nat.div_add_mod' n 10

theorem digitValues_ne_nil (n : Nat) : digitValues n ≠ [] := by
  rw [digitValues]
  split <;> simp

theorem head?_digitValues_ne_zero {n : Nat} (hn : n ≠ 0) : (digitValues n).head? ≠ some 0 := by
  fun_induction digitValues n with
  | case1 n hlt => simpa using hn
  | case2 n hge ih =>
    obtain ⟨d, ds, hds⟩ := List.exists_cons_of_ne_nil (digitValues_ne_nil (n / 10))
    have hd := ih (by omega)
    rw [hds] at hd ⊢
    exact hd

theorem digitValues_ne_zero_cons_cons (n d : Nat) (ds : List Nat) :
    digitValues n ≠ 0 :: d :: ds := by
  intro h
  by_cases hn : n = 0
  · subst hn
    simp [digitValues] at h
  · exact head?_digitValues_ne_zero hn (by rw [h]; rfl)

/-! ### Reading digits back -/

theorem digitValue?_digitChar {d : Nat} (hd : d < 10) : digitValue? (digitChar d) = some d := by
  revert d
  decide

theorem filterMap_digitValue?_digits (n : Nat) :
    (digits n).filterMap digitValue? = digitValues n := by
  have hvalue : ∀ d ∈ digitValues n, (digitValue? ∘ digitChar) d = some d :=
    fun d hd => digitValue?_digitChar (digitValues_lt hd)
  rw [digits_eq_map, List.filterMap_map, List.filterMap_congr hvalue, List.filterMap_some]

theorem digits_injective : Function.Injective digits := by
  intro m n h
  have hvalues : digitValues m = digitValues n := by
    rw [← filterMap_digitValue?_digits, h, filterMap_digitValue?_digits]
  rw [← foldl_digitValues m, hvalues, foldl_digitValues]

theorem isSome_digitValue?_of_mem_digits {n : Nat} {c : Char} (hc : c ∈ digits n) :
    (digitValue? c).isSome = true := by
  rw [digits_eq_map] at hc
  obtain ⟨d, hd, rfl⟩ := List.mem_map.mp hc
  rw [digitValue?_digitChar (digitValues_lt hd)]
  rfl

/-- A number is known where its digits end. -/
theorem digits_append_inj {m n : Nat} {a b : Char} {x y : List Char} (ha : digitValue? a = none)
    (hb : digitValue? b = none) (h : digits m ++ a :: x = digits n ++ b :: y) :
    m = n ∧ a = b ∧ x = y := by
  -- the digits are the longest run of digits at the beginning
  have hrun : ∀ (k : Nat) (c : Char) (z : List Char), digitValue? c = none →
      (digits k ++ c :: z).takeWhile (fun c => (digitValue? c).isSome) = digits k := by
    intro k c z hc
    rw [List.takeWhile_append_of_pos fun _ => isSome_digitValue?_of_mem_digits]
    simp [hc]
  have hdigits : digits m = digits n := by
    rw [← hrun m a x ha, h, hrun n b y hb]
  rw [hdigits, List.append_cancel_left_eq, List.cons.injEq] at h
  exact ⟨digits_injective hdigits, h⟩

/-! ### Octets -/

/-- The octet of a decimal digit. -/
def digitOctet (d : Nat) : UInt8 := .ofNat (0x30 + d)

theorem toNat_digitOctet {d : Nat} (hd : d < 10) : (digitOctet d).toNat = 0x30 + d := by
  rw [digitOctet, UInt8.toNat_ofNat', Nat.mod_eq_of_lt (by omega)]

theorem utf8EncodeChar_digitChar {d : Nat} (hd : d < 10) :
    String.utf8EncodeChar (digitChar d) = [digitOctet d] := by
  revert d
  decide

theorem octets_decimal (n : Nat) : octets (decimal n) = (digitValues n).map digitOctet := by
  have hflat : ∀ ds : List Nat, (∀ d ∈ ds, d < 10) →
      (ds.map digitChar).flatMap String.utf8EncodeChar = ds.map digitOctet := by
    intro ds hds
    induction ds with
    | nil => rfl
    | cons d ds ih =>
      rw [List.map_cons, List.flatMap_cons, utf8EncodeChar_digitChar (hds d (by simp)),
        ih fun e he => hds e (List.mem_cons_of_mem d he)]
      rfl
  rw [decimal, octets_ofList, digits_eq_map]
  exact hflat _ fun _ => digitValues_lt

end LockOrder.Text
