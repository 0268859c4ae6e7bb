import LockOrder.Deflate.Inflate

/-!
# Inflating needs no more than its input

A step of reading takes bits off the front and counts them, so the bits that were taken and those
still to come are always as many as the input has. Hence no octet of output, and no end of the data,
is put down to an octet past the input.

## Main definitions

* `Deflate.Bits.Within` — the taken bits and those still to come make up an input of so many octets
* `Deflate.Keeps` — a step of reading preserves that
* `Deflate.Bounded` — so does inflating, and its output needs no more than the input

## Main results

* `Deflate.need_le_of_inflate` — output and end of inflated data need no more than the input
-/

namespace LockOrder.Deflate

variable {α β : Type} {size : Nat} {s s' : Bits}

/-- The bits that were taken and those still to come make up an input of `size` octets. -/
def Bits.Within (size : Nat) (s : Bits) : Prop := s.used + s.rest.length = 8 * size

theorem length_octetBits (b : UInt8) : (octetBits b).length = 8 := by
  simp [octetBits]

theorem length_flatMap_octetBits (bytes : List UInt8) :
    (bytes.flatMap octetBits).length = 8 * bytes.length := by
  induction bytes with
  | nil => rfl
  | cons b bytes ih =>
    rw [List.flatMap_cons, List.length_append, length_octetBits, ih, List.length_cons]
    omega

theorem Bits.within_ofOctets (bytes : List UInt8) : (ofOctets bytes).Within bytes.length := by
  rw [Bits.Within, ofOctets, length_flatMap_octetBits, Nat.zero_add]

theorem Bits.Within.octetsUsed_le (h : s.Within size) : s.octetsUsed ≤ size := by
  simp only [Bits.Within, Bits.octetsUsed] at *
  omega

/-! ### Steps of reading -/

/-- A step of reading stays within the input. -/
def Keeps (size : Nat) (m : BitReader α) : Prop :=
  ∀ s a s', m s = .ok (a, s') → s.Within size → s'.Within size

theorem keeps_pure (a : α) : Keeps size (pure a) := by
  rintro s _ _ ⟨⟩ hs
  exact hs

theorem keeps_corrupt : Keeps size (corrupt : BitReader α) := nofun

theorem Keeps.bind {m : BitReader α} {k : α → BitReader β} (hm : Keeps size m)
    (hk : ∀ a, Keeps size (k a)) : Keeps size (m >>= k) := by
  intro s b s' h hs
  cases hfirst : m s with
  | error halt => simp [Bind.bind, StateT.bind, Except.bind, hfirst] at h
  | ok r =>
    obtain ⟨a, s₁⟩ := r
    have hsecond : k a s₁ = .ok (b, s') := by
      simpa [Bind.bind, StateT.bind, Except.bind, hfirst] using h
    exact hk a s₁ b s' hsecond (hm s a s₁ hfirst hs)

theorem Keeps.map {m : BitReader α} (hm : Keeps size m) (f : α → β) : Keeps size (f <$> m) := by
  rw [← bind_pure_comp]
  exact hm.bind fun a => keeps_pure (f a)

theorem keeps_bit : Keeps size bit := by
  rintro ⟨rest, used⟩ b s' h hs
  cases rest with
  | nil => cases h
  | cons b rest =>
    cases h
    simp only [Bits.Within, List.length_cons] at *
    omega

theorem keeps_number (n : Nat) : Keeps size (number n) := by
  induction n with
  | zero => exact keeps_pure 0
  | succ n ih => exact keeps_bit.bind fun _ => ih.bind fun _ => keeps_pure _

-- An input ends with an octet, so what is left of the last octet that was touched is there to skip.
theorem keeps_align : Keeps size align := by
  rintro ⟨rest, used⟩ _ s' ⟨⟩ hs
  simp only [Bits.Within, List.length_drop] at *
  omega

theorem keeps_decode (code : Code) : Keeps size code.decode := by
  induction code with
  | vacant => exact keeps_corrupt
  | leaf symbol => exact keeps_pure symbol
  | fork zero one ihzero ihone =>
    refine keeps_bit.bind fun b => ?_
    split
    · exact ihone
    · exact ihzero

theorem keeps_ranged (ranges : List (Nat × Nat)) (index : Nat) :
    Keeps size (ranged ranges index) := by
  unfold ranged
  split
  · exact keeps_corrupt
  · exact (keeps_number _).bind fun _ => keeps_pure _

theorem keeps_token (codes : Codes) : Keeps size (token codes) := by
  refine (keeps_decode _).bind fun symbol => ?_
  split
  · exact keeps_pure _
  split
  · exact keeps_pure _
  refine (keeps_ranged _ _).bind fun _ => ?_
  refine (keeps_decode _).bind fun _ => ?_
  exact (keeps_ranged _ _).bind fun _ => keeps_pure _

theorem keeps_shortNumbers (n : Nat) : Keeps size (shortNumbers n) := by
  induction n with
  | zero => exact keeps_pure []
  | succ n ih => exact (keeps_number 3).bind fun _ => ih.bind fun _ => keeps_pure _

theorem keeps_wordLengths (code : Code) (count fuel : Nat) (found : List Nat) :
    Keeps size (wordLengths code count fuel found) := by
  induction fuel generalizing found with
  | zero => exact keeps_corrupt
  | succ fuel ih =>
    unfold wordLengths
    split
    · refine (keeps_decode code).bind fun symbol => ?_
      split
      · exact ih _
      split
      · split
        · exact keeps_corrupt
        · exact (keeps_number 2).bind fun _ => ih _
      · dsimp only
        split
        · exact ((keeps_number 3).map _).bind fun _ => ih _
        · exact ((keeps_number 7).map _).bind fun _ => ih _
    split
    · exact keeps_pure _
    · exact keeps_corrupt

theorem keeps_codeOf (sparse : Bool) (lengths : List Nat) : Keeps size (codeOf sparse lengths) := by
  unfold codeOf
  split
  · exact keeps_pure _
  · exact keeps_corrupt

theorem keeps_blockCodes : Keeps size blockCodes := by
  refine (keeps_number 5).bind fun _ => ?_
  refine (keeps_number 5).bind fun _ => ?_
  refine (keeps_number 4).bind fun _ => ?_
  split
  · exact keeps_corrupt
  refine (keeps_shortNumbers _).bind fun _ => ?_
  refine (keeps_codeOf _ _).bind fun _ => ?_
  refine (keeps_wordLengths _ _ _ _).bind fun _ => ?_
  refine (keeps_codeOf _ _).bind fun _ => ?_
  exact (keeps_codeOf _ _).bind fun _ => keeps_pure _

theorem keeps_blockHead : Keeps size blockHead := by
  have hplain : Keeps size plainLength := by
    refine keeps_align.bind fun _ => ?_
    refine (keeps_number 16).bind fun _ => ?_
    refine (keeps_number 16).bind fun _ => ?_
    split
    · exact keeps_pure _
    · exact keeps_corrupt
  refine keeps_bit.bind fun last => (keeps_number 2).bind fun kind => ?_
  split
  · exact hplain.bind fun _ => keeps_pure _
  · split
    · exact keeps_pure _
    · exact keeps_corrupt
  · exact keeps_blockCodes.bind fun _ => keeps_pure _
  · exact keeps_corrupt

/-! ### Inflating -/

/-- Output needs no more than an input of `size` octets, and reading goes on within it. -/
structure Bounded (size : Nat) (progress : Progress α) : Prop where
  /-- No octet of output needs more than the input. -/
  need_le : ∀ octet ∈ progress.1, octet.need ≤ size
  /-- Reading goes on within the input. -/
  within : ∀ a s, progress.2 = .ok (a, s) → s.Within size

variable {output : Array Octet}

theorem need_le_push (h : ∀ octet ∈ output, octet.need ≤ size) (hs : s.Within size) (b : UInt8) :
    ∀ octet ∈ output.push ⟨b, s.octetsUsed⟩, octet.need ≤ size := by
  intro octet hmem
  rcases Array.mem_push.mp hmem with hmem | rfl
  · exact h octet hmem
  · exact hs.octetsUsed_le

theorem need_le_copyBack {need : Nat} (hneed : need ≤ size) (distance length : Nat)
    (h : ∀ octet ∈ output, octet.need ≤ size) :
    ∀ octet ∈ copyBack need distance length output, octet.need ≤ size := by
  induction length generalizing output with
  | zero => exact h
  | succ length ih =>
    refine ih fun octet hmem => ?_
    rcases Array.mem_push.mp hmem with hmem | rfl
    · exact h octet hmem
    · exact hneed

theorem bounded_inflateSymbols (codes : Codes) (fuel : Nat)
    (h : ∀ octet ∈ output, octet.need ≤ size) (hs : s.Within size) :
    Bounded size (inflateSymbols codes fuel output s) := by
  induction fuel generalizing output s with
  | zero => exact ⟨h, nofun⟩
  | succ fuel ih =>
    rw [inflateSymbols]
    split
    · exact ⟨h, nofun⟩
    · next b s' hread =>
      have hs' := keeps_token codes s _ s' hread hs
      exact ih (need_le_push h hs' b) hs'
    · next length distance s' hread =>
      have hs' := keeps_token codes s _ s' hread hs
      exact ih (need_le_copyBack hs'.octetsUsed_le distance length h) hs'
    · next s' hread =>
      have hs' := keeps_token codes s _ s' hread hs
      refine ⟨h, ?_⟩
      rintro _ _ ⟨⟩
      exact hs'

theorem bounded_inflatePlain (n : Nat) (h : ∀ octet ∈ output, octet.need ≤ size)
    (hs : s.Within size) : Bounded size (inflatePlain n output s) := by
  induction n generalizing output s with
  | zero =>
    refine ⟨h, ?_⟩
    rintro _ _ ⟨⟩
    exact hs
  | succ n ih =>
    rw [inflatePlain]
    split
    · exact ⟨h, nofun⟩
    · next b s' hread =>
      have hs' := keeps_number 8 s b s' hread hs
      exact ih (need_le_push h hs' _) hs'

theorem Bounded.map {progress : Progress α} (h : Bounded size progress) (b : β) :
    Bounded size (progress.1, progress.2.map fun reached => (b, reached.2)) := by
  refine ⟨h.need_le, fun a s hs => ?_⟩
  obtain ⟨output, result⟩ := progress
  cases result with
  | error halt => cases hs
  | ok reached =>
    cases hs
    exact h.within reached.1 reached.2 rfl

theorem bounded_inflateBlock (h : ∀ octet ∈ output, octet.need ≤ size) (hs : s.Within size) :
    Bounded size (inflateBlock output s) := by
  rw [inflateBlock]
  split
  · exact ⟨h, nofun⟩
  · next last layout s' hread =>
    have hs' := keeps_blockHead s _ s' hread hs
    cases layout with
    | plain length => exact (bounded_inflatePlain length h hs').map last
    | coded codes => exact (bounded_inflateSymbols codes (s'.rest.length + 1) h hs').map last

/-- Nothing that inflating gives needs more than an input of `size` octets. -/
theorem need_le_of_inflateBlocks (fuel : Nat) (h : ∀ octet ∈ output, octet.need ≤ size)
    (hs : s.Within size) :
    (∀ octet ∈ (inflateBlocks fuel output s).output, octet.need ≤ size) ∧
      ∀ need, (inflateBlocks fuel output s).ending = .complete need → need ≤ size := by
  induction fuel generalizing output s with
  | zero => exact ⟨h, nofun⟩
  | succ fuel ih =>
    have hblock := bounded_inflateBlock h hs
    rw [inflateBlocks]
    split
    · next output' halt heq =>
      rw [heq] at hblock
      refine ⟨hblock.need_le, ?_⟩
      cases halt <;> nofun
    · next output' s' heq =>
      rw [heq] at hblock
      refine ⟨hblock.need_le, ?_⟩
      rintro _ ⟨⟩
      exact (hblock.within _ _ rfl).octetsUsed_le
    · next output' s' heq =>
      rw [heq] at hblock
      exact ih hblock.need_le (hblock.within _ _ rfl)

/-- Neither the output nor the end of inflated data needs more than the input. -/
theorem need_le_of_inflate (bytes : List UInt8) :
    (∀ octet ∈ (inflate bytes).output, octet.need ≤ bytes.length) ∧
      ∀ need, (inflate bytes).ending = .complete need → need ≤ bytes.length :=
  need_le_of_inflateBlocks _ (by simp) (Bits.within_ofOctets bytes)

end LockOrder.Deflate
