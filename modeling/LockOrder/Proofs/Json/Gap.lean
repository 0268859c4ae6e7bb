import LockOrder.Json.Skip
import LockOrder.Proofs.Json.Reader

/-!
# White space between tokens

White space may stand between any two tokens. Every reader of a value starts by skipping it, and
after a value it ends the value like any other separator. So the items of an array or an object can
have white space on both sides.

## Main definitions

* `Json.Gap` — white space
* `Json.SkipsGaps` — white space in front makes no difference to a reader
* `Json.Padded` — a text with white space around it
* `Json.separated`, `Json.Bracket.enclose` — items with commas between them, and in brackets

## Main results

* `Json.SkipsGaps.bind` — a reader that starts by skipping white space skips it
* `Json.length_lt_separated` — a text is long enough to be the ruler of a loop over its items
-/

namespace LockOrder.Json

variable {α β : Type} {b : UInt8} {gap rest text : List UInt8} {cut : Option Cut}

/-- White space, of any length. -/
def Gap (text : List UInt8) : Prop := ∀ b ∈ text, isBlank b = true

theorem gap_nil : Gap [] := nofun

theorem Gap.append (h : Gap gap) (h' : Gap text) : Gap (gap ++ text) :=
  fun b hb => (List.mem_append.mp hb).elim (h b) (h' b)

/-- White space ends a value, if what comes after it does. -/
theorem Gap.stops (h : Gap gap) (hrest : Feed.Stops ⟨rest, cut⟩) :
    Feed.Stops ⟨gap ++ rest, cut⟩ := by
  cases gap with
  | nil => exact hrest
  | cons b gap =>
    have hb : isBlank b = true := h b List.mem_cons_self
    exact Feed.stops_cons (by simp [isStop, hb])

/-! ### Readers that skip white space -/

/-- White space in front makes no difference to a reader. -/
def SkipsGaps (item : Reader α) : Prop :=
  ∀ gap rest cut, Gap gap → item ⟨gap ++ rest, cut⟩ = item ⟨rest, cut⟩

theorem skipsGaps_skipBlanks : SkipsGaps skipBlanks := by
  intro gap rest cut hgap
  simp only [skipBlanks, List.dropWhile_append_of_pos hgap]

/-- What comes after the first step of a reader does not matter. -/
theorem SkipsGaps.bind {m : Reader α} (h : SkipsGaps m) (k : α → Reader β) :
    SkipsGaps (m >>= k) := by
  intro gap rest cut hgap
  rw [run_bind, run_bind, h gap rest cut hgap]

theorem skipsGaps_skipBlanksTo : SkipsGaps skipBlanksTo := skipsGaps_skipBlanks.bind _

theorem skipBlanksTo_gap (hgap : Gap gap) (hb : isBlank b = false) :
    skipBlanksTo ⟨gap ++ b :: rest, cut⟩ = .ok (b, ⟨b :: rest, cut⟩) := by
  rw [skipsGaps_skipBlanksTo gap _ cut hgap, skipBlanksTo_cons hb]

/-- White space at the end of a complete text ends a value, and is skipped. -/
theorem Gap.stops_at_end (h : Gap gap) : Feed.Stops ⟨gap, none⟩ := by
  have hstops : Feed.Stops ⟨gap ++ [], none⟩ := h.stops rfl
  rwa [List.append_nil] at hstops

theorem Gap.skipBlanks_at_end (h : Gap gap) :
    skipBlanks ⟨gap, none⟩ = .ok (none, ⟨[], none⟩) := by
  have hend := skipsGaps_skipBlanks gap [] none h
  rwa [List.append_nil] at hend

/-- A text with white space around it. -/
def Padded (kind : List UInt8 → Prop) (text : List UInt8) : Prop :=
  ∃ before core after, Gap before ∧ kind core ∧ Gap after ∧ text = before ++ (core ++ after)

theorem Padded.of_core {kind : List UInt8 → Prop} (h : kind text) : Padded kind text :=
  ⟨[], text, [], gap_nil, h, gap_nil, (List.append_nil text).symm⟩

/-! ### Items with commas between them -/

/-- Texts with a comma before each, except that the first has none if `first` says so. -/
def separated (first : Bool) : List (List UInt8) → List UInt8
  | [] => []
  | text :: texts => (if first then [] else [0x2C]) ++ (text ++ separated false texts)

theorem separated_true (texts : List (List UInt8)) :
    separated true texts = [0x2C].intercalate texts := by
  have hmore : ∀ texts, separated false texts = texts.flatMap (0x2C :: ·) := by
    intro texts
    induction texts with
    | nil => rfl
    | cons text texts ih => simp [separated, ih]
  have hcons : ∀ text texts, [0x2C].intercalate (text :: texts) =
      text ++ texts.flatMap ((0x2C : UInt8) :: ·) := by
    intro text texts
    induction texts generalizing text with
    | nil => simp
    | cons next texts ih => simp [ih]
  cases texts with
  | nil => rfl
  | cons text texts => simp [separated, hmore, hcons]

-- Each text has an octet of its own, and the bracket that closes them counts for the last step.
theorem length_lt_separated {texts : List (List UInt8)} (h : ∀ text ∈ texts, text ≠ [])
    (first : Bool) (gap : List UInt8) (close : UInt8) (rest : List UInt8) :
    texts.length < (separated first texts ++ (gap ++ close :: rest)).length := by
  have hlength : texts.length ≤ (separated first texts).length := by
    induction texts generalizing first with
    | nil => exact Nat.le_refl _
    | cons text texts ih =>
      have htext := List.length_pos_iff.mpr (h text List.mem_cons_self)
      have htexts := ih (fun text hmem => h text (List.mem_cons_of_mem _ hmem)) false
      simp only [separated, List.length_append, List.length_cons]
      omega
  simp only [List.length_append, List.length_cons]
  omega

/-- The byte that opens a bracket. -/
def Bracket.opening : Bracket → UInt8
  | .list => 0x5B
  | .object => 0x7B

/-- In brackets a value is followed by a comma or the closing bracket, white space aside. -/
theorem stops_in_brackets (bracket : Bracket) {after : List UInt8} (hafter : Gap after)
    (texts : List (List UInt8)) (hgap : Gap gap) (rest : List UInt8) (cut : Option Cut) :
    Feed.Stops ⟨after ++ (separated false texts ++ (gap ++ bracket.closing :: rest)), cut⟩ := by
  apply hafter.stops
  cases texts with
  | nil =>
    apply hgap.stops
    cases bracket <;> exact Feed.stops_cons (by decide)
  | cons text texts => exact Feed.stops_cons (by decide)

/-- Items in brackets, with commas between them and white space before the closing one. -/
def Bracket.enclose (bracket : Bracket) (texts : List (List UInt8)) (gap : List UInt8) :
    List UInt8 :=
  bracket.opening :: (separated true texts ++ (gap ++ [bracket.closing]))

theorem Bracket.enclose_append (bracket : Bracket) (texts : List (List UInt8))
    (gap rest : List UInt8) :
    bracket.enclose texts gap ++ rest =
      bracket.opening :: (separated true texts ++ (gap ++ bracket.closing :: rest)) := by
  rw [enclose, List.cons_append, List.append_assoc, List.append_assoc, List.singleton_append]

end LockOrder.Json
