import LockOrder.Proofs.Json.Syntax
import Mathlib.Data.List.Forall2
import Mathlib.Data.List.ReduceOption

/-!
# The forms of a value

A value can be written in many ways: white space may stand between tokens, characters of a string
may be escaped, a record may be an object or an array, and an empty list may be null. A form says
which texts stand for a value. It also tells the texts with a slip in them, where an object lacks a
field or has it twice; a reader finds the first of these.

## Main definitions

* `Json.Slip`, `Json.Form` — the texts for a value, each with the first slip in it
* `Json.Form.sequence`, `Json.Form.list` — items in brackets, and lists that may be null
* `Json.Form.record` — objects and arrays of fields
* `Json.Accepts` — a reader takes every text of a form for a value, and finds the first slip

## Main results

* `Json.accepts_listOf`, `Json.Accepts.orNull` — arrays, and lists that may be null
* `Json.Accepts.decodeFeed` — whole texts
-/

namespace LockOrder.Json

open Text (octets)

variable {α β : Type} {item : Reader α} {a : α} {text gap gap' rest marks : List UInt8}
  {cut : Option Cut}

/-! ### Texts and slips -/

/-- What may be wrong with the members of an object: a field is left out, or put in twice. -/
inductive Slip where
  /-- A field is left out. -/
  | missing (name : String)
  /-- A field is put in twice. -/
  | duplicate (name : String)

/-- How a reader reports a slip. -/
def Slip.flaw : Slip → Flaw
  | .missing name => .missing name
  | .duplicate name => .duplicate name

/-- The texts that may be written for a value, each with the first slip in it, if there is one. -/
abbrev Form := Option Slip → List UInt8 → Prop

namespace Form

/-- A text without slips that is of a certain kind. -/
def plain (kind : List UInt8 → Prop) : Form := fun slip? text => slip? = none ∧ kind text

/-- Items in brackets, with white space around each of them. -/
def sequence (bracket : Bracket) (items : List Form) : Form := fun slip? text =>
  ∃ (parts : List (Option Slip × List UInt8)) (gap : List UInt8),
    List.Forall₂ (fun item part => Padded (item part.1) part.2) items parts ∧ Gap gap ∧
      slip? = parts.findSome? Prod.fst ∧ text = bracket.enclose (parts.map Prod.snd) gap

/-- A string. -/
def quoted (s : String) : Form := plain (Quoted s)

/-- A number. -/
def number (n : Nat) : Form := plain fun text => text = octets (Text.decimal n)

/-- A form, or null if `empty` holds. -/
def orNull (form : Form) (empty : Prop) : Form := fun slip? text =>
  form slip? text ∨ empty ∧ slip? = none ∧ text = null

/-- An array of values, or null if there are none. -/
def list (form : α → Form) (as : List α) : Form :=
  (sequence .list (as.map form)).orNull (as = [])

/-- A key, a colon and a value. -/
def member (name : String) (value : Form) : Form := fun slip? text =>
  ∃ key after gap core, Quoted name key ∧ Gap after ∧ Gap gap ∧ value slip? core ∧
    text = key ++ (after ++ 0x3A :: (gap ++ core))

/-- A member of an object: a field, or a key that is not among `names` with any value. -/
def entry (names : List String) : Option (String × Form) → Form
  | some field => member field.1 field.2
  | none => fun slip? text => ∃ name ∉ names, member name (plain Value) slip? text

/-- An object that holds the fields in any order, among any members with other keys. -/
def object (names : List String) (fields : List (String × Form)) : Form := fun slip? text =>
  ∃ order : List (Option (String × Form)), order.reduceOption.Perm fields ∧
    sequence .object (order.map (entry names)) slip? text

/-- A record with the given fields: an object, or the array of their values in order. An object that
lacks one of the fields or has one twice is a slip. -/
inductive record (fields : List (String × Form)) : Option Slip → List UInt8 → Prop where
  | object {slip? : Option Slip} {text : List UInt8}
      (h : Form.object (fields.map Prod.fst) fields slip? text) : record fields slip? text
  | array {slip? : Option Slip} {text : List UInt8}
      (h : Form.sequence .list (fields.map Prod.snd) slip? text) : record fields slip? text
  | missing {before after : List (String × Form)} {field : String × Form} {text : List UInt8}
      (hfields : fields = before ++ field :: after)
      (h : Form.object (fields.map Prod.fst) (before ++ after) none text) :
      record fields (some (.missing field.1)) text
  | duplicate {field : String × Form} {text : List UInt8} (hfield : field ∈ fields)
      (h : Form.object (fields.map Prod.fst) (field :: fields) none text) :
      record fields (some (.duplicate field.1)) text

theorem sequence.exists_cons {bracket : Bracket} {items : List Form} {slip? : Option Slip}
    (h : sequence bracket items slip? text) : ∃ tail, text = bracket.opening :: tail := by
  obtain ⟨parts, gap, -, -, -, rfl⟩ := h
  exact ⟨_, rfl⟩

theorem object.exists_cons {names : List String} {fields : List (String × Form)}
    {slip? : Option Slip} (h : object names fields slip? text) : ∃ tail, text = 0x7B :: tail := by
  obtain ⟨order, -, h⟩ := h
  exact h.exists_cons

/-- A record starts with a bracket. -/
theorem record.exists_cons {fields : List (String × Form)} {slip? : Option Slip}
    (h : record fields slip? text) :
    ∃ (bracket : Bracket) (tail : List UInt8), text = bracket.opening :: tail := by
  cases h with
  | object h => exact ⟨.object, h.exists_cons⟩
  | array h => exact ⟨.list, h.exists_cons⟩
  | missing _ h => exact ⟨.object, h.exists_cons⟩
  | duplicate _ h => exact ⟨.object, h.exists_cons⟩

end Form

/-! ### What a reader makes of a text -/

/-- A value, or the flaw of a slip. -/
def verdict (slip? : Option Slip) (b : β) : Except Flaw β :=
  match slip? with
  | none => .ok b
  | some slip => .error slip.flaw

@[simp]
theorem verdict_none (b : β) : verdict none b = .ok b := rfl

@[simp]
theorem verdict_some (slip : Slip) (b : β) : verdict (some slip) b = .error slip.flaw := rfl

theorem bind_of_eq_error {m : Reader α} {feed : Feed} {flaw : Flaw} (h : m feed = .error flaw)
    (k : α → Reader β) : (m >>= k) feed = .error flaw := by
  rw [run_bind, h]
  rfl

/-- What goes on after a slip does not matter. -/
theorem bind_of_eq_verdict {m : Reader α} {k : α → Reader β} {feed feed' : Feed}
    {slip? : Option Slip} {r : β × Feed} (h : m feed = verdict slip? (a, feed'))
    (hk : k a feed' = .ok r) : (m >>= k) feed = verdict slip? r := by
  cases slip? with
  | none => rw [bind_of_eq_ok h, hk, verdict_none]
  | some slip => rw [bind_of_eq_error h, verdict_some]

/-- A reader takes every text of a form for the value `a`, and finds the first slip. -/
structure Accepts (item : Reader α) (form : Form) (a : α) : Prop where
  /-- White space in front makes no difference. -/
  skips : SkipsGaps item
  /-- A text starts with a byte that ends no value. -/
  opens : ∀ {slip? text}, form slip? text → ∃ b tail, text = b :: tail ∧ isStop b = false
  /-- The text is taken off and what follows is left. -/
  responds : ∀ {slip? text}, form slip? text → ∀ rest cut, Feed.Stops ⟨rest, cut⟩ →
    item ⟨text ++ rest, cut⟩ = verdict slip? (a, ⟨rest, cut⟩)

namespace Accepts

variable {form : Form}

/-- A text without a slip is read back. -/
theorem reads (h : Accepts item form a) (htext : form none text) : Reads item text a where
  opens := by
    obtain ⟨b, tail, rfl, hb⟩ := h.opens htext
    exact ⟨b, rfl, hb⟩
  reads feed hfeed := h.responds htext feed.bytes feed.cut hfeed

theorem of_reads {kind : List UInt8 → Prop} (hskips : SkipsGaps item)
    (h : ∀ text, kind text → Reads item text a) : Accepts item (.plain kind) a where
  skips := hskips
  opens := fun ⟨_, htext⟩ => (h _ htext).exists_cons
  responds := by
    rintro _ text ⟨rfl, htext⟩ rest cut hstops
    exact (h text htext).run hstops

theorem map (h : Accepts item form a) (f : α → β) :
    Accepts (do return f (← item)) form (f a) where
  skips := h.skips.bind _
  opens := h.opens
  responds htext rest cut hstops := bind_of_eq_verdict (h.responds htext rest cut hstops) rfl

/-- What may be null is read as the default from null. -/
theorem orNull {bracket : Bracket} {items : List Form} {empty : Prop} {default : α}
    (h : Accepts item (.sequence bracket items) a) (hempty : empty → a = default) :
    Accepts (do return (← nullable item).getD default)
      (Form.orNull (.sequence bracket items) empty) a where
  skips := (skipsGaps_skipBlanks.bind _).bind _
  opens := by
    rintro slip? text (htext | ⟨-, -, rfl⟩)
    · exact h.opens htext
    · exact ⟨_, _, rfl, rfl⟩
  responds := by
    rintro slip? text (htext | ⟨hem, rfl, rfl⟩) rest cut hstops
    · have hitem := h.responds htext rest cut hstops
      obtain ⟨tail, rfl⟩ := htext.exists_cons
      have hblank := isBlank_of_isStop_eq_false (isStop_opening bracket)
      -- a bracket is not the first letter of null
      have hsome : nullable item ⟨bracket.opening :: tail ++ rest, cut⟩ =
          verdict slip? (some a, ⟨rest, cut⟩) := by
        rw [List.cons_append] at hitem ⊢
        rw [nullable, bind_of_eq_ok (skipBlanks_cons hblank)]
        cases bracket <;> exact bind_of_eq_verdict hitem rfl
      exact bind_of_eq_verdict hsome rfl
    · rw [hempty hem]
      rfl

end Accepts

/-! ### Strings and numbers -/

theorem accepts_text (s : String) : Accepts Json.text (.quoted s) s :=
  .of_reads skipsGaps_text fun _ => Quoted.reads

theorem Form.quoted_quote (s : String) : Form.quoted s none (octets (quote s)) :=
  ⟨rfl, Json.quoted_quote s⟩

theorem accepts_natural {n bound : Nat} (hn : n < bound) (hbound : bound ≤ wordBound)
    (expected : String) : Accepts (natural bound expected) (.number n) n := by
  refine .of_reads (skipsGaps_skipBlanksTo.bind _) ?_
  rintro _ rfl
  exact reads_natural hn hbound expected

theorem Form.number_decimal (n : Nat) : Form.number n none (octets (Text.decimal n)) := ⟨rfl, rfl⟩

/-! ### Arrays -/

theorem moreElements_close (hgap : Gap gap) (first : Bool) :
    moreElements first ⟨gap ++ 0x5D :: rest, cut⟩ = .ok (false, ⟨0x5D :: rest, cut⟩) := by
  rw [moreElements, bind_of_eq_ok (skipBlanksTo_gap hgap (by decide)), if_pos rfl, run_pure]

/-- The white space around the comma is taken off, and the element is left. -/
theorem moreElements_item (hopens : ∃ b tail, text = b :: tail ∧ isStop b = false)
    (hgap : Gap gap) (hgap' : Gap gap') (first : Bool) :
    moreElements first ⟨gap ++ ((if first then [] else [0x2C]) ++ (gap' ++ (text ++ rest))), cut⟩ =
      .ok (true, ⟨text ++ rest, cut⟩) := by
  obtain ⟨b, tail, rfl, hb⟩ := hopens
  have hblank := isBlank_of_isStop_eq_false hb
  have hclose : b ≠ 0x5D := by
    rintro rfl
    exact absurd hb (by decide)
  rw [List.cons_append]
  cases first with
  | true =>
    rw [if_pos rfl, List.nil_append, ← List.append_assoc, moreElements,
      bind_of_eq_ok (skipBlanksTo_gap (hgap.append hgap') hblank), if_neg hclose, if_pos rfl,
      run_pure]
  | false =>
    rw [if_neg (by decide), List.singleton_append, moreElements,
      bind_of_eq_ok (skipBlanksTo_gap hgap (by decide)), if_neg (by decide), if_neg (by decide),
      if_pos rfl, bind_of_eq_ok advance_cons, bind_of_eq_ok (skipBlanksTo_gap hgap' hblank),
      if_neg hclose, run_pure]

theorem closeList_gap (hgap : Gap gap) :
    closeList ⟨gap ++ 0x5D :: rest, cut⟩ = .ok ((), ⟨rest, cut⟩) := by
  rw [closeList, bind_of_eq_ok (skipBlanksTo_gap hgap (by decide))]
  rfl

theorem elements_close {m : UInt8} (hgap : Gap gap) (first : Bool) (acc : List α) :
    elements item (m :: marks) first acc ⟨gap ++ 0x5D :: rest, cut⟩ =
      .ok (acc.reverse, ⟨0x5D :: rest, cut⟩) := by
  rw [elements, bind_of_eq_ok (moreElements_close hgap first)]
  rfl

/-- One element is read, and the others after it. -/
theorem elements_item {m : UInt8} (hopens : ∃ b tail, text = b :: tail ∧ isStop b = false)
    (hgap : Gap gap) (hgap' : Gap gap') (first : Bool) (acc : List α) :
    elements item (m :: marks) first acc
        ⟨gap ++ ((if first then [] else [0x2C]) ++ (gap' ++ (text ++ rest))), cut⟩ =
      (item >>= fun a => elements item marks false (a :: acc)) ⟨text ++ rest, cut⟩ := by
  rw [elements, bind_of_eq_ok (moreElements_item hopens hgap hgap' first), if_pos rfl]

/-- The elements are read up to the first slip. -/
theorem elements_parts {form : α → Form} {as : List α} {parts : List (Option Slip × List UInt8)}
    (h : ∀ a ∈ as, Accepts item (form a) a)
    (hparts : List.Forall₂ (fun a part => Padded (form a part.1) part.2) as parts)
    (hgap : Gap gap) (hgap' : Gap gap') (hmarks : parts.length < marks.length) (first : Bool)
    (acc : List α) (rest : List UInt8) (cut : Option Cut) :
    elements item marks first acc
        ⟨gap ++ (separated first (parts.map Prod.snd) ++ (gap' ++ 0x5D :: rest)), cut⟩ =
      verdict (parts.findSome? Prod.fst) (acc.reverse ++ as, ⟨0x5D :: rest, cut⟩) := by
  induction hparts generalizing marks first acc gap with
  | nil =>
    obtain ⟨m, marks, rfl⟩ := List.exists_cons_of_length_pos (Nat.zero_lt_of_lt hmarks)
    rw [List.map_nil, separated, List.nil_append, ← List.append_assoc,
      elements_close (hgap.append hgap'), List.append_nil]
    rfl
  | @cons a part as parts hpart _ ih =>
    obtain ⟨m, marks, rfl⟩ := List.exists_cons_of_length_pos (Nat.zero_lt_of_lt hmarks)
    obtain ⟨slip?, _⟩ := part
    obtain ⟨before, core, after, hbefore, hcore, hafter, rfl⟩ := hpart
    rw [List.forall_mem_cons] at h
    have hread := h.1.responds hcore _ cut
      (stops_in_brackets .list hafter (parts.map Prod.snd) hgap' rest cut)
    simp only [List.map_cons, separated, List.append_assoc]
    rw [elements_item (h.1.opens hcore) hgap hbefore]
    -- a slip in this element ends the reading, and it is the first one
    cases slip? with
    | none =>
      have hmore := ih h.2 hafter (Nat.lt_of_succ_lt_succ hmarks) false (a :: acc)
      rw [List.reverse_cons, List.append_assoc, List.singleton_append] at hmore
      exact (bind_of_eq_ok hread _).trans hmore
    | some slip => exact bind_of_eq_error hread _

-- The octets of the items are the ruler of the loop over them.
theorem length_parts_lt {γ : Type} {kind : γ → Option Slip → List UInt8 → Prop} {cs : List γ}
    {parts : List (Option Slip × List UInt8)}
    (hparts : List.Forall₂ (fun c part => Padded (kind c part.1) part.2) cs parts)
    (hne : ∀ c ∈ cs, ∀ {slip? text}, kind c slip? text → text ≠ []) (gap : List UInt8)
    (close : UInt8) (rest : List UInt8) :
    parts.length < (separated true (parts.map Prod.snd) ++ (gap ++ close :: rest)).length := by
  have hne' : ∀ text ∈ parts.map Prod.snd, text ≠ [] := by
    induction hparts with
    | nil => exact List.forall_mem_nil _
    | cons hpart _ ih =>
      rw [List.forall_mem_cons] at hne
      rw [List.map_cons, List.forall_mem_cons]
      refine ⟨?_, ih hne.2⟩
      obtain ⟨before, core, after, -, hcore, -, htext⟩ := hpart
      rw [htext]
      simp [hne.1 hcore]
  have hlength := length_lt_separated hne' true gap close rest
  rwa [List.length_map] at hlength

/-- An array is read if its elements are. -/
theorem accepts_listOf {form : α → Form} {as : List α} (h : ∀ a ∈ as, Accepts item (form a) a) :
    Accepts (listOf item) (.sequence .list (as.map form)) as where
  skips := skipsGaps_skipBlanksTo.bind _
  opens htext := by
    obtain ⟨tail, rfl⟩ := Form.sequence.exists_cons htext
    exact ⟨_, tail, rfl, rfl⟩
  responds := by
    rintro slip? text ⟨parts, gap, hparts, hgap, rfl, rfl⟩ rest cut -
    rw [List.forall₂_map_left_iff] at hparts
    have hne : ∀ a ∈ as, ∀ {slip? text}, form a slip? text → text ≠ [] := by
      intro a ha slip? text htext
      obtain ⟨b, tail, rfl, -⟩ := (h a ha).opens htext
      exact List.cons_ne_nil b tail
    have hmarks := length_parts_lt hparts hne gap 0x5D rest
    have helements := elements_parts h hparts gap_nil hgap hmarks true [] rest cut
    rw [Bracket.enclose_append, listOf, bind_of_eq_ok (skipBlanksTo_cons (by decide)),
      if_pos (by decide), bind_of_eq_ok advance_cons, bind_of_eq_ok (ruler_eq _)]
    exact bind_of_eq_verdict helements (bind_of_eq_ok (closeList_gap gap_nil) _)

/-- Items without slips can stand without white space between them. -/
theorem Form.sequence_enclose {items : List Form} {texts : List (List UInt8)}
    (h : List.Forall₂ (fun item text => item none text) items texts) (bracket : Bracket) :
    Form.sequence bracket items none (bracket.enclose texts []) := by
  refine ⟨texts.map fun text => (none, text), [], ?_, gap_nil, ?_, ?_⟩
  · rw [List.forall₂_map_right_iff]
    exact h.imp fun item text htext => .of_core htext
  · rw [List.findSome?_map, eq_comm, List.findSome?_eq_none_iff]
    exact fun _ _ => rfl
  · rw [List.map_map]
    exact congrArg (bracket.enclose · []) (List.map_id texts).symm

/-- An array that is written without white space is one of its forms. -/
theorem Form.sequence_array {form : α → Form} {write : α → String} {as : List α}
    (h : ∀ a ∈ as, form a none (octets (write a))) :
    Form.sequence .list (as.map form) none (octets (array (as.map write))) := by
  have hopen : octets "[" = [0x5B] := Text.octets_ofList ['[']
  have hcomma : octets "," = [0x2C] := Text.octets_ofList [',']
  have hclose : octets "]" = [0x5D] := Text.octets_ofList [']']
  have hwritten : octets (array (as.map write)) =
      Bracket.enclose .list (as.map fun a => octets (write a)) [] := by
    rw [array, Text.octets_append, Text.octets_append, Text.octets_intercalate, hopen, hcomma,
      hclose, Bracket.enclose, separated_true, List.map_map, List.append_assoc]
    rfl
  rw [hwritten]
  apply Form.sequence_enclose
  rw [List.forall₂_map_left_iff, List.forall₂_map_right_iff, List.forall₂_same]
  exact h

theorem Form.list_array {form : α → Form} {write : α → String} {as : List α}
    (h : ∀ a ∈ as, form a none (octets (write a))) :
    Form.list form as none (octets (array (as.map write))) :=
  .inl (sequence_array h)

/-! ### Whole texts -/

/-- A whole text may have white space around it. -/
theorem Accepts.decodeFeed {form : Form} {slip? : Option Slip} (h : Accepts item form a)
    (htext : Padded (form slip?) text) : decodeFeed item ⟨text, none⟩ = verdict slip? a := by
  obtain ⟨before, core, after, hbefore, hcore, hafter, rfl⟩ := htext
  -- what follows the value is white space and the end of the text
  have hdocument : document item ⟨before ++ (core ++ after), none⟩ =
      verdict slip? (a, ⟨[], none⟩) := by
    rw [document, (h.skips.bind _) before _ none hbefore]
    refine bind_of_eq_verdict (h.responds hcore after none hafter.stops_at_end) ?_
    rw [bind_of_eq_ok hafter.skipBlanks_at_end]
    rfl
  rw [Json.decodeFeed, hdocument]
  cases slip? <;> rfl

theorem Reads.decodeFeed (h : Reads item text a) : decodeFeed item ⟨text, none⟩ = .ok a := by
  have hitem : item ⟨text ++ [], none⟩ = .ok (a, ⟨[], none⟩) := h.run rfl
  rw [List.append_nil] at hitem
  have hend : skipBlanks ⟨[], none⟩ = .ok (none, ⟨[], none⟩) := rfl
  rw [Json.decodeFeed, document, bind_of_eq_ok hitem, bind_of_eq_ok hend]
  rfl

theorem Reads.decode {written : String} (h : Reads item (octets written) a) :
    decode item written = .ok a :=
  h.decodeFeed

end LockOrder.Json
