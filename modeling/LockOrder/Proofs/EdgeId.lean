import LockOrder.Error
import LockOrder.Proofs.Outcome
import LockOrder.Proofs.Text.Decimal
import Mathlib.Data.List.TakeWhile

/-!
# Written names of nodes and edges

An edge is written as two numbers with a hyphen between them. The hyphen is no digit of any script,
so that the numbers can be told apart. A name is taken apart at digits of all scripts, but its
numbers are read from ASCII digits only, with any number of zeros in front, and have to be words.

## Main definitions

* `EdgeId.Spells` — ASCII digits and the number that they spell
* `EdgeId.Names` — the texts that name an edge

## Main results

* `EdgeId.text_injective` — different edges have different names
* `EdgeId.split?_eq_some_iff`, `EdgeId.readIndex_eq_ok_iff` — the two steps of reading
* `EdgeId.parse_eq_ok_iff` — the names that are read
* `EdgeId.parse_text` — a written name is read back
* `EdgeId.parse_reads_names` — names are read and all other texts are refused
-/

namespace LockOrder

open Text (digits digitChar digitValues digits_append_inj digits_injective)

theorem toList_nodeName (node : Nat) : (nodeName node).toList = 'n' :: digits node := by
  simp [nodeName, Text.decimal]

namespace EdgeId

variable {given : String} {id : EdgeId} {node edge cs : List Char} {c : Char} {acc n : Nat}

theorem toList_text (e : EdgeId) :
    e.text.toList = 'e' :: (digits e.node ++ '-' :: digits e.edge) := by
  simp [text, Text.decimal]

theorem text_injective : Function.Injective EdgeId.text := by
  intro e e' h
  have hchars := congrArg String.toList h
  rw [toList_text, toList_text, List.cons.injEq] at hchars
  obtain ⟨hnode, _, hedge⟩ := digits_append_inj rfl rfl hchars.2
  cases e
  cases e'
  exact EdgeId.mk.injEq .. ▸ ⟨hnode, digits_injective hedge⟩

/-! ### Taking a name apart -/

/-- A name is taken apart at the hyphen, which is no digit of any script. -/
theorem split?_eq_some_iff :
    split? cs = some (node, edge) ↔ cs = 'e' :: (node ++ '-' :: edge) ∧
      (node ≠ [] ∧ ∀ c ∈ node, Text.isDecimalDigit c = true) ∧
      edge ≠ [] ∧ ∀ c ∈ edge, Text.isDecimalDigit c = true := by
  constructor
  · intro h
    unfold split? at h
    split at h
    · next rest =>
      have hrest := List.takeWhile_append_dropWhile (p := Text.isDecimalDigit) (l := rest)
      dsimp only at h
      split at h
      · next tail hdrop =>
        split at h
        · next hcond =>
          obtain ⟨rfl, rfl⟩ := Prod.mk.inj (Option.some.inj h)
          simp only [Bool.and_eq_true, Bool.not_eq_true', List.isEmpty_eq_false_iff,
            List.all_eq_true] at hcond
          rw [hdrop] at hrest
          exact ⟨by rw [hrest], ⟨hcond.1.1, fun c => List.mem_takeWhile_imp⟩, hcond.1.2, hcond.2⟩
        · cases h
      · cases h
    · cases h
  · rintro ⟨rfl, ⟨hnode, hnodes⟩, hedge, hedges⟩
    have hhyphen : Text.isDecimalDigit '-' = false := by decide +kernel
    have htake : (node ++ '-' :: edge).takeWhile Text.isDecimalDigit = node := by
      rw [List.takeWhile_append_of_pos hnodes]
      simp [hhyphen]
    have hdrop : (node ++ '-' :: edge).dropWhile Text.isDecimalDigit = '-' :: edge := by
      rw [List.dropWhile_append_of_pos hnodes]
      simp [hhyphen]
    have hall : edge.all Text.isDecimalDigit = true := List.all_eq_true.mpr hedges
    simp [split?, htake, hdrop, hall, hnode, hedge]

/-! ### Reading a number -/

/-- An ASCII digit. -/
def IsAsciiDigit (c : Char) : Prop := '0' ≤ c ∧ c ≤ '9'

instance : DecidablePred IsAsciiDigit := fun _ => inferInstanceAs (Decidable (_ ∧ _))

/-- The number that digits spell after those of `acc`. -/
def valueFrom (acc : Nat) (cs : List Char) : Nat :=
  cs.foldl (fun m c => m * 10 + (c.toNat - '0'.toNat)) acc

theorem le_valueFrom (acc : Nat) (cs : List Char) : acc ≤ valueFrom acc cs := by
  induction cs generalizing acc with
  | nil => exact Nat.le_refl acc
  | cons c cs ih => exact Nat.le_trans (by omega) (ih (acc * 10 + (c.toNat - '0'.toNat)))

/-- Digits are read as the number that they spell, if that is a word. -/
theorem readIndex_eq_ok_iff (hacc : acc < wordBound) :
    readIndex given acc cs = .ok n ↔
      (∀ c ∈ cs, IsAsciiDigit c) ∧ n = valueFrom acc cs ∧ n < wordBound := by
  induction cs generalizing acc with
  | nil =>
    constructor
    · intro h
      obtain rfl := Except.ok.inj h
      exact ⟨List.forall_mem_nil _, rfl, hacc⟩
    · rintro ⟨-, rfl, -⟩
      rfl
  | cons c cs ih =>
    rw [List.forall_mem_cons, readIndex]
    by_cases hdigit : IsAsciiDigit c
    · have hvalue : Text.digitValue? c = some (c.toNat - '0'.toNat) := if_pos hdigit
      rw [hvalue]
      dsimp only
      by_cases hlt : acc * 10 + (c.toNat - '0'.toNat) < wordBound
      · rw [if_pos hlt, ih hlt]
        exact and_congr_left' (and_iff_right hdigit).symm
      · -- what was read so far never exceeds the number that it leads to
        have hle : acc * 10 + (c.toNat - '0'.toNat) ≤ valueFrom acc (c :: cs) := le_valueFrom _ cs
        rw [if_neg hlt]
        exact iff_of_false nofun fun h => hlt (Nat.lt_of_le_of_lt (h.2.1 ▸ hle) h.2.2)
    · have hvalue : Text.digitValue? c = none := if_neg hdigit
      rw [hvalue]
      exact iff_of_false nofun fun h => hdigit h.1.1

/-! ### Names that are read -/

/-- One or more ASCII digits, and the number that they spell. -/
structure Spells (cs : List Char) (n : Nat) : Prop where
  /-- There is a digit. -/
  ne_nil : cs ≠ []
  /-- There are only ASCII digits. -/
  ascii : ∀ c ∈ cs, IsAsciiDigit c
  /-- They spell the number in decimal. -/
  value : n = valueFrom 0 cs

/-- A text that names an edge: an `e`, the node, a hyphen and the position, both as ASCII digits
that spell a word. -/
def Names (given : String) (id : EdgeId) : Prop :=
  ∃ node edge : List Char, given.toList = 'e' :: (node ++ '-' :: edge) ∧
    Spells node id.node ∧ Spells edge id.edge ∧ id.node < wordBound ∧ id.edge < wordBound

theorem IsAsciiDigit.isDecimalDigit (h : IsAsciiDigit c) : Text.isDecimalDigit c = true := by
  have hc : 0x30 ≤ c.toNat ∧ c.toNat < 0x30 + 10 := ⟨h.1, Nat.lt_succ_of_le h.2⟩
  refine Array.any_eq_true.mpr ⟨0, by decide, ?_⟩
  exact Bool.and_eq_true_iff.mpr ⟨decide_eq_true hc.1, decide_eq_true hc.2⟩

theorem Spells.readIndex (h : Spells cs n) (hn : n < wordBound) (given : String) :
    readIndex given 0 cs = .ok n :=
  (readIndex_eq_ok_iff (by decide)).mpr ⟨h.ascii, h.value, hn⟩

/-- The texts that name an edge are those that are read. -/
theorem parse_eq_ok_iff : parse given = .ok id ↔ Names given id := by
  constructor
  · intro h
    rw [parse] at h
    cases hsplit : split? given.toList with
    | none =>
      rw [hsplit] at h
      cases h
    | some parts =>
      obtain ⟨node, edge⟩ := parts
      obtain ⟨hgiven, ⟨hnode, -⟩, hedge, -⟩ := split?_eq_some_iff.mp hsplit
      rw [hsplit] at h
      obtain ⟨n, hn, h⟩ := Outcome.bind_eq_ok_iff.mp h
      obtain ⟨e, he, h⟩ := Outcome.bind_eq_ok_iff.mp h
      obtain rfl := Except.ok.inj h
      obtain ⟨hnodes, hvalue, hlt⟩ := (readIndex_eq_ok_iff (by decide)).mp hn
      obtain ⟨hedges, hvalue', hlt'⟩ := (readIndex_eq_ok_iff (by decide)).mp he
      exact ⟨node, edge, hgiven, ⟨hnode, hnodes, hvalue⟩, ⟨hedge, hedges, hvalue'⟩, hlt, hlt'⟩
  · rintro ⟨node, edge, hgiven, hnode, hedge, hlt, hlt'⟩
    -- an ASCII digit is a digit, so the name is taken apart where it is put together
    have hsplit : split? given.toList = some (node, edge) :=
      split?_eq_some_iff.mpr ⟨hgiven,
        ⟨hnode.ne_nil, fun c hc => (hnode.ascii c hc).isDecimalDigit⟩,
        hedge.ne_nil, fun c hc => (hedge.ascii c hc).isDecimalDigit⟩
    simp only [parse, hsplit, hnode.readIndex hlt, hedge.readIndex hlt']
    rfl

theorem isAsciiDigit_digitChar {d : Nat} (hd : d < 10) : IsAsciiDigit (digitChar d) := by
  revert d
  decide

/-- A number is spelled by its digits. -/
theorem spells_digits (n : Nat) : Spells (digits n) n where
  ne_nil := by
    rw [Text.digits_eq_map, Ne, List.map_eq_nil_iff]
    exact Text.digitValues_ne_nil n
  ascii := by
    rw [Text.digits_eq_map]
    exact List.forall_mem_map.mpr fun d hd => isAsciiDigit_digitChar (Text.digitValues_lt hd)
  value := by
    have hstep : ∀ d < 10, (digitChar d).toNat - '0'.toNat = d := by decide
    have hvalues : (digits n).map (fun c => c.toNat - '0'.toNat) = digitValues n := by
      rw [Text.digits_eq_map, List.map_map]
      exact (List.map_congr_left fun d hd => hstep d (Text.digitValues_lt hd)).trans
        (List.map_id _)
    rw [valueFrom, ← List.foldl_map, hvalues, Text.foldl_digitValues]

/-- A written name is read back, if its numbers are words. -/
theorem parse_text {e : EdgeId} (hnode : e.node < wordBound) (hedge : e.edge < wordBound) :
    parse e.text = .ok e :=
  parse_eq_ok_iff.mpr ⟨digits e.node, digits e.edge, toList_text e, spells_digits e.node,
    spells_digits e.edge, hnode, hedge⟩

/-- **Names of edges are read exactly.** A text is read as an edge if and only if it is an `e`,
ASCII digits that spell the node, a hyphen and ASCII digits that spell the position, where both
numbers are words and zeros may come first. Every other text is refused as a bad request. What is
written for an edge is read back. -/
theorem parse_reads_names :
    (∀ given id, parse given = .ok id ↔ Names given id) ∧
      (∀ given, (∀ id, ¬ Names given id) →
        ∃ flaw, parse given = .error flaw ∧ (Error.edgeId flaw).kind = .badInput ∧
          (Error.edgeId flaw).layer = .request) ∧
      ∀ id : EdgeId, id.node < wordBound → id.edge < wordBound → parse id.text = .ok id := by
  refine ⟨fun given id => parse_eq_ok_iff, fun given hnone => ?_, fun id => parse_text⟩
  cases h : parse given with
  | ok id => exact absurd (parse_eq_ok_iff.mp h) (hnone id)
  | error flaw => exact ⟨flaw, rfl, rfl, rfl⟩

/-- Zeros may come before the largest word, but not before a number that is no word, and a digit of
another script is refused. The last edge that has a name is read back. -/
theorem parse_reads_names_zeros :
    parse "e007-018446744073709551615" = .ok ⟨7, wordBound - 1⟩ ∧
      (∃ flaw, parse "e0-018446744073709551616" = .error flaw ∧
        (Error.edgeId flaw).kind = .badInput ∧ (Error.edgeId flaw).layer = .request) ∧
      (∃ flaw, parse "e٣-0" = .error flaw ∧
        (Error.edgeId flaw).kind = .badInput ∧ (Error.edgeId flaw).layer = .request) ∧
      parse (text ⟨wordBound - 1, wordBound - 1⟩) = .ok ⟨wordBound - 1, wordBound - 1⟩ := by
  obtain ⟨hread, hrefused, hwritten⟩ := parse_reads_names
  have hascii : ∀ cs : List Char, (cs.all fun c => decide (IsAsciiDigit c)) = true →
      ∀ c ∈ cs, IsAsciiDigit c :=
    fun cs hall c hc => of_decide_eq_true (List.all_eq_true.mp hall c hc)
  have hnames : Names "e007-018446744073709551615" ⟨7, wordBound - 1⟩ := by
    refine ⟨['0', '0', '7'], "018446744073709551615".toList, by decide, ⟨?_, hascii _ ?_, ?_⟩,
      ⟨?_, hascii _ ?_, ?_⟩, ?_, ?_⟩
    all_goals decide
  have hnone : ∀ given, (parse given).toOption = none → ∀ id, ¬ Names given id := by
    intro given hnone id hid
    rw [(hread given id).mpr hid] at hnone
    cases hnone
  exact ⟨(hread _ _).mpr hnames, hrefused _ (hnone _ (by decide +kernel)),
    hrefused _ (hnone _ (by decide +kernel)), hwritten _ (by decide) (by decide)⟩

end EdgeId

end LockOrder
