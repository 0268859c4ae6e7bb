import LockOrder.Proofs.Json.Number
import LockOrder.Proofs.Json.Text

/-!
# The syntax of values

A value that nobody asked for is passed over if its syntax is right, however deeply it is nested and
whatever it stands for: numbers may be too large for any type, and strings need not be texts.

## Main definitions

* `Json.NumberText`, `Json.Numeral.Written` — how a number may be written, the sign aside
* `Json.Lead` — what stands before a value in an array or an object
* `Json.Value` — the texts that are values by their syntax

## Main results

* `Json.Numeral.Written.numeral` — the parts of a number are read back
* `Json.Value.passed` — a value is passed over in no more steps than it has octets
* `Json.Value.skipValue` — a value is taken off and what follows is left
-/

namespace LockOrder.Json

variable {b m : UInt8} {text gap rest marks : List UInt8} {cut : Option Cut} {feed : Feed}
  {first : Bool} {bracket : Bracket} {outer : List Bracket}

/-! ### Numbers -/

/-- At least one digit. -/
def Digits (text : List UInt8) : Prop := text ≠ [] ∧ ∀ b ∈ text, isDigit b = true

/-- Digits before a point. A leading zero stands alone. -/
def Whole (text : List UInt8) : Prop := Digits text ∧ (text.head? = some 0x30 → text = [0x30])

/-- A point and the digits after it, or nothing. -/
inductive Fraction : List UInt8 → Prop where
  | none : Fraction []
  | some {ds : List UInt8} (h : Digits ds) : Fraction (0x2E :: ds)

/-- An exponent, or nothing. -/
inductive Exponent : List UInt8 → Prop where
  | none : Exponent []
  | some {mark : UInt8} {sign ds : List UInt8} (hmark : mark = 0x65 ∨ mark = 0x45)
      (hsign : sign = [] ∨ sign = [0x2B] ∨ sign = [0x2D]) (h : Digits ds) :
      Exponent (mark :: (sign ++ ds))

/-- A number without its sign. -/
def NumberText (text : List UInt8) : Prop :=
  ∃ whole fraction exponent, Whole whole ∧ Fraction fraction ∧ Exponent exponent ∧
    text = whole ++ (fraction ++ exponent)

/-- The values of digits. -/
def valuesOf (ds : List UInt8) : List Nat := ds.map fun b => b.toNat - 0x30

/-- The exponent that is written after its letter, if there is one. -/
def exponentOf : List UInt8 → Option Int
  | [] => none
  | _ :: 0x2D :: ds => some (-(ofDigits (valuesOf ds)))
  | _ :: 0x2B :: ds => some (ofDigits (valuesOf ds))
  | _ :: ds => some (ofDigits (valuesOf ds))

/-- A text is a number with the parts of the numeral, the sign aside. -/
def Numeral.Written (n : Numeral) (text : List UInt8) : Prop :=
  ∃ whole fraction exponent, Whole whole ∧ Fraction fraction ∧ Exponent exponent ∧
    n = ⟨valuesOf whole, valuesOf fraction.tail, exponentOf exponent⟩ ∧
    text = whole ++ (fraction ++ exponent)

theorem NumberText.exists_written (h : NumberText text) : ∃ n : Numeral, n.Written text := by
  obtain ⟨whole, fraction, exponent, hwhole, hfraction, hexponent, htext⟩ := h
  exact ⟨_, whole, fraction, exponent, hwhole, hfraction, hexponent, rfl, htext⟩

theorem Numeral.Written.numberText {n : Numeral} (h : n.Written text) : NumberText text := by
  obtain ⟨whole, fraction, exponent, hwhole, hfraction, hexponent, -, htext⟩ := h
  exact ⟨whole, fraction, exponent, hwhole, hfraction, hexponent, htext⟩

theorem noDigit_fraction {fraction exponent : List UInt8} (hfraction : Fraction fraction)
    (hexponent : Exponent exponent) (hfeed : feed.Stops) :
    NoDigit (fraction ++ (exponent ++ feed.bytes)) := by
  cases hfraction with
  | some h =>
    rintro b ⟨⟩
    rfl
  | none =>
    cases hexponent with
    | none => exact hfeed.noDigit
    | some hmark hsign h =>
      rintro b ⟨⟩
      rcases hmark with rfl | rfl <;> rfl

theorem someDigits_of_digits {ds : List UInt8} (h : Digits ds) (hrest : NoDigit rest) :
    someDigits ⟨ds ++ rest, cut⟩ = .ok (valuesOf ds, ⟨rest, cut⟩) := by
  obtain ⟨d, ds, rfl⟩ := List.exists_cons_of_ne_nil h.1
  rw [someDigits, bind_of_eq_ok (digitRun_of_digits h.2 hrest cut)]
  rfl

theorem wholeDigits_of_whole {whole : List UInt8} (h : Whole whole) (hrest : NoDigit rest) :
    wholeDigits ⟨whole ++ rest, cut⟩ = .ok (valuesOf whole, ⟨rest, cut⟩) := by
  obtain ⟨⟨hne, hdigits⟩, hzero⟩ := h
  rw [wholeDigits, bind_of_eq_ok (digitRun_of_digits hdigits hrest cut), valuesOf]
  generalize hvalues : whole.map (fun b => b.toNat - 0x30) = values
  split
  · exact absurd (List.map_eq_nil_iff.mp hvalues) hne
  · -- a zero with digits after it
    next d ds =>
    obtain ⟨b, whole, rfl⟩ := List.exists_cons_of_ne_nil hne
    obtain ⟨hb, hmore⟩ := List.cons_eq_cons.mp hvalues
    have hdigit := hdigits b List.mem_cons_self
    have hb' : b = 0x30 := by
      have hle : 0x30 ≤ b.toNat := by
        simp only [isDigit, Bool.and_eq_true, decide_eq_true_eq] at hdigit
        exact UInt8.le_iff_toNat_le.mp hdigit.1
      exact UInt8.toNat_inj.mp (Nat.le_antisymm (Nat.sub_eq_zero_iff_le.mp hb) hle)
    subst hb'
    obtain rfl : whole = [] := (List.cons_eq_cons.mp (hzero rfl)).2
    cases hmore
  · rfl

theorem fractionDigits_of_fraction {fraction exponent : List UInt8}
    (hfraction : Fraction fraction) (hexponent : Exponent exponent) (hfeed : feed.Stops) :
    fractionDigits ⟨fraction ++ (exponent ++ feed.bytes), feed.cut⟩ =
      .ok (valuesOf fraction.tail, ⟨exponent ++ feed.bytes, feed.cut⟩) := by
  cases hfraction with
  | some h => exact someDigits_of_digits h (noDigit_fraction .none hexponent hfeed)
  | none =>
    cases hexponent with
    | none => exact hfeed.fractionDigits
    | some hmark hsign h => rcases hmark with rfl | rfl <;> rfl

theorem exponentOf_digits {mark d : UInt8} (hd : isDigit d = true) (ds : List UInt8) :
    exponentOf (mark :: d :: ds) = some (ofDigits (valuesOf (d :: ds))) := by
  unfold exponentOf
  split
  · next heq => cases heq
  · next heq =>
    cases heq
    exact absurd hd (by decide)
  · next heq =>
    cases heq
    exact absurd hd (by decide)
  · next heq =>
    cases heq
    rfl

theorem exponentPart_of_exponent {exponent : List UInt8} (hexponent : Exponent exponent)
    (hfeed : feed.Stops) :
    exponentPart ⟨exponent ++ feed.bytes, feed.cut⟩ = .ok (exponentOf exponent, feed) := by
  cases hexponent with
  | none => exact hfeed.exponentPart
  | @some mark sign ds hmark hsign h =>
    have hread : ∀ f : List Nat → Option Int,
        (do return f (← someDigits) : Reader (Option Int)) ⟨ds ++ feed.bytes, feed.cut⟩ =
          .ok (f (valuesOf ds), feed) :=
      fun f => bind_of_eq_ok (someDigits_of_digits h hfeed.noDigit) _
    rcases hsign with rfl | rfl | rfl
    · -- the first digit is no sign
      obtain ⟨d, ds, rfl⟩ := List.exists_cons_of_ne_nil h.1
      have hd : isDigit d = true := h.2 d List.mem_cons_self
      rw [List.nil_append, exponentOf_digits hd]
      refine Eq.trans ?_ (hread fun ds => some (ofDigits ds))
      rcases hmark with rfl | rfl
      all_goals
        rw [List.cons_append, exponentPart, bind_of_eq_ok peek_cons]
        change (advance >>= fun _ => _) _ = _
        rw [bind_of_eq_ok advance_cons, List.cons_append, bind_of_eq_ok peek_cons]
        generalize hpeek : some d = peeked
        split
        · exact absurd (Option.some.inj hpeek ▸ hd) (by decide)
        · exact absurd (Option.some.inj hpeek ▸ hd) (by decide)
        · rfl
    · rcases hmark with rfl | rfl <;> exact hread fun ds => some (ofDigits ds)
    · rcases hmark with rfl | rfl <;> exact hread fun ds => some (-(ofDigits ds))

/-- The parts of a number are read back. -/
theorem Numeral.Written.numeral {n : Numeral} (h : n.Written text) (hfeed : feed.Stops) :
    Json.numeral ⟨text ++ feed.bytes, feed.cut⟩ = .ok (n, feed) := by
  obtain ⟨whole, fraction, exponent, hwhole, hfraction, hexponent, rfl, rfl⟩ := h
  have hrest := noDigit_fraction hfraction hexponent hfeed
  simp only [Json.numeral, List.append_assoc, run_bind, wholeDigits_of_whole hwhole hrest, ok_bind,
    fractionDigits_of_fraction hfraction hexponent hfeed, exponentPart_of_exponent hexponent hfeed,
    hfeed.peek, run_pure]

/-- A number is passed over. -/
theorem skipNumber_of_numberText (h : NumberText text) (hfeed : feed.Stops) :
    skipNumber ⟨text ++ feed.bytes, feed.cut⟩ = .ok ((), feed) := by
  obtain ⟨n, hn⟩ := h.exists_written
  rw [skipNumber, bind_of_eq_ok (hn.numeral hfeed), run_pure]

/-! ### Values -/

/-- What stands before a value in brackets. In an object that is a key and a colon, in an array
there is nothing; white space aside. -/
inductive Lead : Bracket → List UInt8 → Prop where
  | list {gap : List UInt8} (hgap : Gap gap) : Lead .list gap
  | object {before body after gap : List UInt8} (hbefore : Gap before) (hbody : Body body)
      (hafter : Gap after) (hgap : Gap gap) :
      Lead .object (before ++ 0x22 :: (body ++ 0x22 :: (after ++ 0x3A :: gap)))

/-- A value in brackets, with what stands before it and the white space after it. -/
structure Item where
  /-- What stands before the value. -/
  lead : List UInt8
  /-- The value. -/
  value : List UInt8
  /-- The white space after it. -/
  after : List UInt8

/-- The octets of an item. -/
def Item.octets (item : Item) : List UInt8 := item.lead ++ (item.value ++ item.after)

/-- The word null. -/
def null : List UInt8 := [0x6E, 0x75, 0x6C, 0x6C]

/-- The words that are values: null, true and false. -/
def words : List (List UInt8) :=
  [null, [0x74, 0x72, 0x75, 0x65], [0x66, 0x61, 0x6C, 0x73, 0x65]]

/-- The texts that are values by their syntax. -/
inductive Value : List UInt8 → Prop where
  | word {text : List UInt8} (h : text ∈ words) : Value text
  | number {text : List UInt8} (h : NumberText text) : Value text
  | negative {text : List UInt8} (h : NumberText text) : Value (0x2D :: text)
  | string {body : List UInt8} (h : Body body) : Value (0x22 :: (body ++ [0x22]))
  | nested (bracket : Bracket) {items : List Item} {gap : List UInt8}
      (hlead : ∀ item ∈ items, Lead bracket item.lead) (hvalue : ∀ item ∈ items, Value item.value)
      (hafter : ∀ item ∈ items, Gap item.after) (hgap : Gap gap) :
      Value (bracket.enclose (items.map Item.octets) gap)

theorem NumberText.exists_cons (h : NumberText text) :
    ∃ b tail, text = b :: tail ∧ isDigit b = true := by
  obtain ⟨whole, fraction, exponent, ⟨⟨hne, hdigits⟩, _⟩, _, _, rfl⟩ := h
  obtain ⟨b, whole, rfl⟩ := List.exists_cons_of_ne_nil hne
  exact ⟨b, _, List.cons_append, hdigits b List.mem_cons_self⟩

theorem isStop_opening (bracket : Bracket) : isStop bracket.opening = false := by
  cases bracket <;> rfl

/-- A value starts with a byte that ends no value. -/
theorem Value.exists_cons (h : Value text) : ∃ b tail, text = b :: tail ∧ isStop b = false := by
  cases h with
  | word h =>
    simp only [words, List.mem_cons, List.not_mem_nil, or_false] at h
    rcases h with rfl | rfl | rfl <;> exact ⟨_, _, rfl, rfl⟩
  | number h =>
    obtain ⟨b, tail, rfl, hb⟩ := h.exists_cons
    exact ⟨b, tail, rfl, isStop_of_isDigit hb⟩
  | negative h => exact ⟨_, _, rfl, rfl⟩
  | string h => exact ⟨_, _, rfl, rfl⟩
  | nested bracket _ _ _ _ => exact ⟨_, _, rfl, isStop_opening bracket⟩

/-! ### Passing over values -/

/-- How a value is passed over: at once, or by opening a bracket and closing it some steps later. -/
inductive Passed (text : List UInt8) : Prop where
  | atOnce (h : ∀ feed : Feed, feed.Stops →
      skipStart ⟨text ++ feed.bytes, feed.cut⟩ = .ok (none, feed))
  | opened {bracket : Bracket} {content : List UInt8} {steps : Nat}
      (htext : text = bracket.opening :: content) (hsteps : steps ≤ content.length)
      (h : ∀ marks outer rest cut, steps ≤ marks.length →
        skipLoop marks true (bracket :: outer) ⟨content ++ rest, cut⟩ =
          skipLoop (marks.drop steps) false outer ⟨rest, cut⟩)

theorem passed_word (h : text ∈ words) : Passed text := by
  refine .atOnce fun feed _ => ?_
  simp only [words, List.mem_cons, List.not_mem_nil, or_false] at h
  rcases h with rfl | rfl | rfl <;> rfl

theorem skipStart_of_isDigit (hb : isDigit b = true) (rest : List UInt8) (cut : Option Cut) :
    skipStart ⟨b :: rest, cut⟩ = (do skipNumber; return none : Reader _) ⟨b :: rest, cut⟩ := by
  have hblank := isBlank_of_isStop_eq_false (isStop_of_isDigit hb)
  rw [skipStart, bind_of_eq_ok (skipBlanksTo_cons hblank)]
  split
  all_goals try exact absurd hb (by decide)
  rw [if_pos hb]

theorem passed_number (h : NumberText text) : Passed text := by
  refine .atOnce fun feed hfeed => ?_
  have hskip := skipNumber_of_numberText h hfeed
  obtain ⟨b, tail, rfl, hb⟩ := h.exists_cons
  rw [List.cons_append] at hskip ⊢
  rw [skipStart_of_isDigit hb, bind_of_eq_ok hskip, run_pure]

theorem passed_negative (h : NumberText text) : Passed (0x2D :: text) := by
  refine .atOnce fun feed hfeed => ?_
  rw [List.cons_append, skipStart, bind_of_eq_ok (skipBlanksTo_cons (by decide))]
  change (advance >>= fun _ => _) _ = _
  rw [bind_of_eq_ok advance_cons, bind_of_eq_ok (skipNumber_of_numberText h hfeed), run_pure]

theorem passed_string {body : List UInt8} (h : Body body) :
    Passed (0x22 :: (body ++ [0x22])) := by
  refine .atOnce fun feed _ => ?_
  rw [List.cons_append, List.append_assoc, List.singleton_append, skipStart,
    bind_of_eq_ok (skipBlanksTo_cons (by decide))]
  change (advance >>= fun _ => _) _ = _
  rw [bind_of_eq_ok advance_cons, bind_of_eq_ok (skipStringBody_of_body h), run_pure]

theorem skipStart_opening (bracket : Bracket) (rest : List UInt8) (cut : Option Cut) :
    skipStart ⟨bracket.opening :: rest, cut⟩ = .ok (some bracket, ⟨rest, cut⟩) := by
  cases bracket <;> rfl

/-- What the loop does after the start of a value. -/
def goOn (marks : List UInt8) (outer : List Bracket) : Option Bracket → Reader Unit
  | some inner => skipLoop marks true (inner :: outer)
  | none => skipLoop marks false outer

/-- After a value the loop is back where it was, some steps later. -/
theorem Passed.goOn (h : Passed text) (hne : text ≠ []) :
    ∃ steps < text.length, ∀ marks outer rest cut, Feed.Stops ⟨rest, cut⟩ →
      steps ≤ marks.length →
        (skipStart >>= goOn marks outer) ⟨text ++ rest, cut⟩ =
          skipLoop (marks.drop steps) false outer ⟨rest, cut⟩ := by
  cases h with
  | atOnce h =>
    refine ⟨0, List.length_pos_iff.mpr hne, fun marks outer rest cut hrest _ => ?_⟩
    rw [bind_of_eq_ok (h ⟨rest, cut⟩ hrest)]
    rfl
  | opened htext hsteps h =>
    subst htext
    refine ⟨_, Nat.lt_succ_of_le hsteps, fun marks outer rest cut _ hmarks => ?_⟩
    rw [List.cons_append, bind_of_eq_ok (skipStart_opening _ _ _)]
    exact h marks outer rest cut hmarks

/-- A key and a colon are passed over. -/
theorem skipKey_lead {lead : List UInt8} {α : Type} {k : Reader α} (hlead : Lead bracket lead)
    (hk : SkipsGaps k) :
    (skipKey bracket >>= fun _ => k) ⟨lead ++ rest, cut⟩ = k ⟨rest, cut⟩ := by
  cases hlead with
  | list hgap => exact hk _ _ _ hgap
  | @object before body after gap hbefore hbody hafter hgap =>
    have hkey : skipKey .object
        ⟨before ++ 0x22 :: (body ++ 0x22 :: (after ++ 0x3A :: (gap ++ rest))), cut⟩ =
          .ok ((), ⟨gap ++ rest, cut⟩) := by
      rw [skipKey, bind_of_eq_ok (skipBlanksTo_gap hbefore (by decide)), if_pos rfl,
        bind_of_eq_ok advance_cons]
      change (skipStringBody >>= fun _ => _) _ = _
      rw [bind_of_eq_ok (skipStringBody_of_body hbody),
        bind_of_eq_ok (skipBlanksTo_gap hafter (by decide)), if_pos rfl, advance_cons]
    simp only [List.append_assoc, List.cons_append]
    rw [bind_of_eq_ok hkey, hk _ _ _ hgap]

theorem skipsGaps_skipStart : SkipsGaps skipStart := skipsGaps_skipBlanksTo.bind _

-- In an array the value itself comes next, in an object the quote of its key does.
theorem Lead.exists_skipBlanksTo {lead : List UInt8} (hlead : Lead bracket lead) (hgap : Gap gap)
    (hvalue : ∃ b tail, text = b :: tail ∧ isStop b = false) (rest : List UInt8)
    (cut : Option Cut) :
    ∃ b lead', b ≠ bracket.closing ∧ Lead bracket lead' ∧
      skipBlanksTo ⟨gap ++ (lead ++ (text ++ rest)), cut⟩ =
        .ok (b, ⟨lead' ++ (text ++ rest), cut⟩) := by
  cases hlead with
  | @list gap' hgap' =>
    obtain ⟨b, tail, rfl, hb⟩ := hvalue
    have hclose : b ≠ Bracket.closing .list := by
      rintro rfl
      exact absurd hb (by decide)
    refine ⟨b, [], hclose, .list gap_nil, ?_⟩
    rw [← List.append_assoc, List.cons_append,
      skipBlanksTo_gap (hgap.append hgap') (isBlank_of_isStop_eq_false hb)]
    rfl
  | @object before body after gap' hbefore hbody hafter hgap' =>
    refine ⟨0x22, _, by decide, .object gap_nil hbody hafter hgap', ?_⟩
    simp only [List.append_assoc, List.cons_append, List.nil_append]
    rw [← List.append_assoc gap, skipBlanksTo_gap (hgap.append hbefore) (by decide)]

/-- One step of the loop takes off what stands before a value and the start of the value. -/
theorem skipLoop_lead {lead : List UInt8} (hlead : Lead bracket lead) (hgap : Gap gap)
    (hvalue : ∃ b tail, text = b :: tail ∧ isStop b = false) (first : Bool) :
    skipLoop (m :: marks) first (bracket :: outer)
        ⟨gap ++ ((if first then [] else [0x2C]) ++ (lead ++ (text ++ rest))), cut⟩ =
      (skipStart >>= goOn marks (bracket :: outer)) ⟨text ++ rest, cut⟩ := by
  have hstart : SkipsGaps (skipStart >>= goOn marks (bracket :: outer)) :=
    skipsGaps_skipStart.bind _
  cases first with
  | true =>
    obtain ⟨b, lead', hb, hlead', hskip⟩ := hlead.exists_skipBlanksTo hgap hvalue rest cut
    rw [if_pos rfl, List.nil_append, skipLoop, bind_of_eq_ok hskip, if_neg hb]
    exact skipKey_lead hlead' hstart
  | false =>
    have hclose : (0x2C : UInt8) ≠ bracket.closing := by cases bracket <;> decide
    rw [if_neg (by decide), List.singleton_append, skipLoop,
      bind_of_eq_ok (skipBlanksTo_gap hgap (by decide)), if_neg hclose]
    exact skipKey_lead hlead hstart

theorem skipLoop_closing (hgap : Gap gap) (first : Bool) :
    skipLoop (m :: marks) first (bracket :: outer) ⟨gap ++ bracket.closing :: rest, cut⟩ =
      skipLoop marks false outer ⟨rest, cut⟩ := by
  have hblank : isBlank bracket.closing = false := by cases bracket <;> decide
  rw [skipLoop, bind_of_eq_ok (skipBlanksTo_gap hgap hblank), if_pos rfl,
    bind_of_eq_ok advance_cons]

/-- The loop passes over the items in a bracket and the bracket that closes them, in no more steps
than they have octets. -/
theorem exists_skipLoop_items {items : List Item} (hlead : ∀ item ∈ items, Lead bracket item.lead)
    (hvalue : ∀ item ∈ items, Value item.value) (hpassed : ∀ item ∈ items, Passed item.value)
    (hafter : ∀ item ∈ items, Gap item.after) (first : Bool) :
    ∃ steps ≤ (separated first (items.map Item.octets)).length + 1,
      ∀ marks outer gap gap' rest cut, Gap gap → Gap gap' → steps ≤ marks.length →
        skipLoop marks first (bracket :: outer)
            ⟨gap ++ (separated first (items.map Item.octets) ++ (gap' ++ bracket.closing :: rest)),
              cut⟩ =
          skipLoop (marks.drop steps) false outer ⟨rest, cut⟩ := by
  induction items generalizing first with
  | nil =>
    refine ⟨1, Nat.le_refl 1, fun marks outer gap gap' rest cut hgap hgap' hmarks => ?_⟩
    obtain ⟨m, marks, rfl⟩ := List.exists_cons_of_length_pos hmarks
    rw [List.map_nil, separated, List.nil_append, ← List.append_assoc,
      skipLoop_closing (hgap.append hgap')]
    rfl
  | cons item items ih =>
    simp only [List.forall_mem_cons] at hlead hvalue hpassed hafter
    obtain ⟨b, tail, htext, hb⟩ := hvalue.1.exists_cons
    obtain ⟨steps, hsteps, hitem⟩ := hpassed.1.goOn (by rw [htext]; exact List.cons_ne_nil b tail)
    obtain ⟨more, hmore, hitems⟩ := ih hlead.2 hvalue.2 hpassed.2 hafter.2 false
    refine ⟨1 + steps + more, ?_, fun marks outer gap gap' rest cut hgap hgap' hmarks => ?_⟩
    · simp only [List.map_cons, separated, Item.octets, List.length_append]
      omega
    obtain ⟨m, marks, rfl⟩ := List.exists_cons_of_length_pos (by omega : 0 < marks.length)
    have hstops := stops_in_brackets bracket hafter.1 (items.map Item.octets) hgap' rest cut
    have hdrop : (m :: marks).drop (1 + steps + more) = (marks.drop steps).drop more := by
      rw [List.drop_drop, Nat.add_assoc, Nat.add_comm 1, List.drop_succ_cons]
    -- one step for the start of the value, `steps` to get past it, and `more` for the others
    simp only [List.length_cons] at hmarks
    simp only [List.map_cons, separated, Item.octets, List.append_assoc]
    rw [skipLoop_lead hlead.1 hgap ⟨b, tail, htext, hb⟩, hitem _ _ _ _ hstops (by omega),
      hitems _ _ _ _ _ _ hafter.1 hgap' (by rw [List.length_drop]; omega), hdrop]

/-- A value is passed over in no more steps than it has octets. -/
theorem Value.passed (h : Value text) : Passed text := by
  induction h with
  | word h => exact passed_word h
  | number h => exact passed_number h
  | negative h => exact passed_negative h
  | string h => exact passed_string h
  | nested bracket hlead hvalue hafter hgap ih =>
    obtain ⟨steps, hsteps, hitems⟩ := exists_skipLoop_items hlead hvalue ih hafter true
    refine @Passed.opened _ bracket _ steps rfl ?_ fun marks outer rest cut hmarks => ?_
    · simp only [List.length_append, List.length_singleton]
      omega
    · rw [List.append_assoc, List.append_assoc, List.singleton_append]
      exact hitems marks outer [] _ rest cut gap_nil hgap hmarks

/-- A value is taken off and what follows is left. -/
theorem Value.skipValue (h : Value text) (hfeed : feed.Stops) :
    skipValue ⟨text ++ feed.bytes, feed.cut⟩ = .ok ((), feed) := by
  cases h.passed with
  | atOnce hstart =>
    rw [Json.skipValue, bind_of_eq_ok (hstart feed hfeed)]
    rfl
  | @opened bracket content steps htext hsteps hloop =>
    subst htext
    have hmarks : steps ≤ (content ++ feed.bytes).length := by
      rw [List.length_append]
      omega
    rw [List.cons_append, Json.skipValue, bind_of_eq_ok (skipStart_opening _ _ _)]
    change (ruler >>= fun marks => _) _ = _
    rw [bind_of_eq_ok (ruler_eq _), hloop _ [] feed.bytes feed.cut hmarks]
    cases (content ++ feed.bytes).drop steps <;> rfl

end LockOrder.Json
